import ScriptMachine.Proofs.Machine.Activations
import ScriptMachine.Proofs.Machine.Captures.Step
import ScriptMachine.Proofs.Machine.Construction

/-!
Captured variables are shared locations. Whoever reads a variable through a cell gets the value
that was written last, to the slot of the variable or through any cell, and it makes no difference
when the variable was closed. Two cells that are open for one slot are the same cell.
-/

namespace ScriptMachine.Machine

variable {host : Host} {m : Machine} {ms : Nat → Machine} {n s t u : Nat} {r r' : Ref} {v w : Value}
  {k : Nat}

/-- A step makes the cell of a variable that is captured for the first time. -/
def Makes (ms : Nat → Machine) (t : Nat) (r : Ref) : Prop :=
  (ms t).opcode? = some .makeClosure ∧ (ms t).collectIfDue.heap.get? r = none ∧
    r ∈ (ms (t + 1)).openUpvalues

/-- The cell has been made by a step of the run, or belongs to a variable from before. -/
def Known (ms : Nat → Machine) (t : Nat) (r : Ref) : Prop :=
  ((ms 0).content? r).isSome ∨ ∃ s < t, Makes ms s r

/-- A step writes a value to a captured variable. -/
def SetsAt (host : Host) (ms : Nat → Machine) (t : Nat) (r : Ref) (v : Value) : Prop :=
  Sets host (ms t).collectIfDue (ms (t + 1)) r v

/-- The value that was written to a variable last. If none has been, the variable has the value
from before the run. -/
def Latest (host : Host) (ms : Nat → Machine) (t : Nat) (r : Ref) (v : Value) : Prop :=
  (∃ s < t, SetsAt host ms s r v ∧ ∀ u, s < u → u < t → ∀ w, ¬ SetsAt host ms u r w) ∨
    (ms 0).content? r = some v ∧ ∀ u < t, ∀ w, ¬ SetsAt host ms u r w

/-- Captured variables between two steps. -/
structure SharesVariables (host : Host) (ms : Nat → Machine) (t : Nat) : Prop where
  reads : ∀ r, (ms t).opcode? = some .upvalueGet → (ms t).collectIfDue.cell? = some r →
    Known ms t r → ∃ v m', step host (ms t) = .ok none m' ∧ m'.stack = (ms t).stack.push v ∧
      Latest host ms t r v
  alike : ∀ r r' k, Known ms t r → Known ms t r' → (ms t).heap.openSlot? r = some k →
    (ms t).heap.openSlot? r' = some k → r = r'
  known : ∀ r ∈ (ms t).openUpvalues, Known ms t r
  ends : ∀ e m', step host (ms t) = .ok (some e) m' →
    (∀ k ∈ (ms t).collectIfDue.openSlots, k < (ms t).collectIfDue.departing.stack.size) →
      ∀ r v, m'.content? r = some v → Latest host ms t r v

/-- What a step does with the cells of captured variables: a new closure has the cell of each
capture, and a closed cell has nothing more to do with the stack. -/
structure SharesCells (ms : Nat → Machine) (t : Nat) : Prop where
  captures : (ms t).opcode? = some .makeClosure →
    ∃ f s c, (ms t).frames.head? = some f ∧ (ms (t + 1)).stack = (ms t).stack.push (.ref s) ∧
      (ms (t + 1)).heap.get? s = some (.closure c) ∧
      ∀ i r, c.upvalues[i]? = some r →
        Captured f (f.ip + 3 + 3 * i) (ms t).collectIfDue (ms (t + 1)) r
  closed : ∀ r w u, (ms t).collectIfDue.heap.get? r = some (.upvalue (.closed w)) →
    (ms (t + 1)).heap.get? r = some (.upvalue u) → ∃ v, u = .closed v ∧
      (v = w ∨ (ms t).opcode? = some .upvalueSet ∧ (ms t).collectIfDue.cell? = some r ∧
        (ms t).stack.back? = some v)
  apart : ∀ r w, (ms t).collectIfDue.heap.get? r = some (.upvalue (.closed w)) →
    (ms t).opcode? = some .upvalueSet → (ms t).collectIfDue.cell? = some r →
      (ms (t + 1)).stack = (ms t).stack

/-! States of a run. -/

theorem Launched.openUpvalues (hdiscreet : host.Discreet) (h : Launched host m) :
    m.openUpvalues = [] := by
  cases h with
  | script hframes hsettled => exact (hsettled hframes).2.2
  | @call m m' hframes hsettled callee args hcalled hrunning =>
    have hplaced : ({ m with stack := m.stack.push callee ++ args } : Machine).Settled := hsettled
    obtain ⟨q, f, hleft, rfl⟩ := exists_begun hdiscreet hplaced hframes hcalled hrunning
    exact hleft.openUpvalues hframes (hsettled hframes).2.2

theorem Launched.ordered (hdiscreet : host.Discreet) (h : Launched host m)
    (htidy : m.heap.Tidy) : m.Ordered := by
  have hnone := h.openUpvalues hdiscreet
  refine ⟨htidy, by rw [hnone]; exact .nil, fun k hk => ?_⟩
  unfold openSlots at hk
  rw [hnone] at hk
  cases hk

section Run

variable (hdiscreet : host.Discreet) (hsparing : host.Sparing) (hlaunched : Launched host (ms 0))
  (htidy : (ms 0).heap.Tidy) (hfollows : Follows host ms n)
  (hrespects : ∀ t < n, Respects host (ms t).collectIfDue (ms (t + 1)))

include hdiscreet hsparing hlaunched htidy hfollows hrespects

theorem Follows.ordered (ht : t ≤ n) : (ms t).Ordered := by
  induction t with
  | zero => exact hlaunched.ordered hdiscreet htidy
  | succ t ih =>
    have hdue := carries_collectIfDue (ih (by omega))
    exact ((hfollows.handled hsparing ht).moves hdue.ordered (hrespects t ht)).ordered

theorem Follows.moves (ht : t < n) :
    Moves (SetsAt host ms t) (ms t).collectIfDue (ms (t + 1)) := by
  have hm := hfollows.ordered hdiscreet hsparing hlaunched htidy hrespects (Nat.le_of_lt ht)
  exact (hfollows.handled hsparing ht).moves (carries_collectIfDue hm).ordered (hrespects t ht)

/-- What a variable contains was written to it last. -/
theorem Follows.latest (ht : t ≤ n) (hv : (ms t).content? r = some v) : Latest host ms t r v := by
  induction t generalizing v with
  | zero => exact Or.inr ⟨hv, fun _ hu => absurd hu (Nat.not_lt_zero _)⟩
  | succ t ih =>
    have hmoves := hfollows.moves hdiscreet hsparing hlaunched htidy hrespects ht
    by_cases hset : ∃ w, SetsAt host ms t r w
    · obtain ⟨w, hw⟩ := hset
      obtain rfl := hmoves.written r w v hw hv
      exact Or.inl ⟨t, Nat.lt_succ_self t, hw, fun u hlt hle => by omega⟩
    · have hcalm : ∀ w, ¬ SetsAt host ms t r w := fun w hw => hset ⟨w, hw⟩
      have hm := hfollows.ordered hdiscreet hsparing hlaunched htidy hrespects (by omega : t ≤ n)
      have hbefore : (ms t).content? r = some v := by
        rcases hmoves.back r v hv with hw | hdue
        · exact absurd hw (hcalm v)
        · exact (carries_collectIfDue hm).back r v hdue
      have hnow (u : Nat) (hu : u < t + 1) (hnone : u < t → ∀ w, ¬ SetsAt host ms u r w) :
          ∀ w, ¬ SetsAt host ms u r w := by
        rcases Nat.lt_succ_iff_lt_or_eq.1 hu with hlt | rfl
        · exact hnone hlt
        · exact hcalm
      rcases ih (by omega) hbefore with ⟨s, hs, hw, hlater⟩ | ⟨hfirst, hnone⟩
      · exact Or.inl ⟨s, by omega, hw, fun u hsu hu => hnow u hu (hlater u hsu)⟩
      · exact Or.inr ⟨hfirst, fun u hu => hnow u hu (hnone u)⟩

/-- A cell that is known has a value as long as it is there, and it is there as long as a closure
has it. -/
theorem Follows.live (ht : t ≤ n) (hknown : Known ms t r) :
    (∀ u, (ms t).heap.get? r = some (.upvalue u) → ((ms t).content? r).isSome) ∧
      ∀ s c, (ms t).heap.get? s = some (.closure c) → r ∈ c.upvalues →
        ((ms t).content? r).isSome := by
  induction t with
  | zero =>
    rcases hknown with hsome | ⟨s, hs, -⟩
    · exact ⟨fun _ _ => hsome, fun _ _ _ _ => hsome⟩
    · exact absurd hs (Nat.not_lt_zero s)
  | succ t ih =>
    have hmoves := hfollows.moves hdiscreet hsparing hlaunched htidy hrespects ht
    have hm := hfollows.ordered hdiscreet hsparing hlaunched htidy hrespects (by omega : t ≤ n)
    have hdue := carries_collectIfDue hm
    have hmade (hmakes : Makes ms t r) : ((ms (t + 1)).content? r).isSome :=
      hmoves.ordered.isSome_content? hmakes.2.2
    have hbefore : Makes ms t r ∨ Known ms t r := by
      rcases hknown with hsome | ⟨s, hs, hmakes⟩
      · exact Or.inr (Or.inl hsome)
      · rcases Nat.lt_succ_iff_lt_or_eq.1 hs with hlt | rfl
        · exact Or.inr (Or.inr ⟨s, hlt, hmakes⟩)
        · exact Or.inl hmakes
    rcases hbefore with hmakes | hbefore
    · exact ⟨fun _ _ => hmade hmakes, fun _ _ _ _ => hmade hmakes⟩
    obtain ⟨hcell, hclosure⟩ := ih (by omega) hbefore
    -- What has a value and is still a cell keeps a value.
    have hforth {u u' : Upvalue} (hsome : ((ms t).content? r).isSome)
        (hbetween : (ms t).collectIfDue.heap.get? r = some (.upvalue u'))
        (hget : (ms (t + 1)).heap.get? r = some (.upvalue u)) :
        ((ms (t + 1)).content? r).isSome := by
      obtain ⟨v, hv⟩ := Option.isSome_iff_exists.1 hsome
      exact hmoves.forth r u v hget (hdue.forth r u' v hbetween hv)
    constructor
    · intro u hget
      rcases hmoves.cells r u hget with ⟨u', hbetween⟩ | ⟨-, hsome⟩
      · obtain ⟨u'', hfirst⟩ := hdue.cells r u' hbetween
        exact hforth (hcell u'' hfirst) hbetween hget
      · exact hsome
    · intro s c hs hr
      rcases hmoves.held s c hs r hr with hsome | ⟨s', c', hs', hr', hkept⟩
      · exact hsome
      · have hsome := hclosure s' c' (hdue.closures s' c' hs') hr'
        obtain ⟨v, hv⟩ := Option.isSome_iff_exists.1 hsome
        obtain ⟨u, hfirst⟩ := exists_cell hv
        obtain ⟨u', hbetween⟩ := hdue.held s' c' hs' r hr' u hfirst
        obtain ⟨u'', hget⟩ := hkept u' hbetween
        exact hforth hsome hbetween hget

theorem Follows.known (ht : t ≤ n) (hopen : r ∈ (ms t).openUpvalues) : Known ms t r := by
  induction t with
  | zero =>
    rw [hlaunched.openUpvalues hdiscreet] at hopen
    cases hopen
  | succ t ih =>
    have hmoves := hfollows.moves hdiscreet hsparing hlaunched htidy hrespects ht
    have hm := hfollows.ordered hdiscreet hsparing hlaunched htidy hrespects (by omega : t ≤ n)
    rcases hmoves.opened r hopen with hbetween | ⟨hvacant, v, hset⟩
    · rcases ih (by omega) ((carries_collectIfDue hm).opened r hbetween) with hsome | ⟨s, hs, hmakes⟩
      · exact Or.inl hsome
      · exact Or.inr ⟨s, by omega, hmakes⟩
    · have hop := hset.of_vacant hvacant
      rw [opcode?_collectIfDue] at hop
      exact Or.inr ⟨t, Nat.lt_succ_self t, hop, hvacant, hopen⟩

theorem Follows.sharesVariables (ht : t ≤ n) : SharesVariables host ms t := by
  have hm := hfollows.ordered hdiscreet hsparing hlaunched htidy hrespects ht
  have hdue := carries_collectIfDue hm
  have hlatest {r : Ref} {v : Value} (hv : (ms t).collectIfDue.content? r = some v) :
      Latest host ms t r v :=
    hfollows.latest hdiscreet hsparing hlaunched htidy hrespects ht (hdue.back r v hv)
  have hlive {r : Ref} (hknown : Known ms t r) :=
    hfollows.live hdiscreet hsparing hlaunched htidy hrespects ht hknown
  have hstep : step host (ms t) = instruction host (ms t).collectIfDue := by
    unfold step
    rw [modify_bind]
  refine ⟨fun r hop hcell hknown => ?_, fun r r' k hr hr' hk hk' => ?_,
    fun r hopen => hfollows.known hdiscreet hsparing hlaunched htidy hrespects ht hopen,
    fun e m' hends hfree r v hv => ?_⟩
  · obtain ⟨f, rest, index, c, -, -, hclosure, hmem⟩ := exists_closure_of_cell hcell
    have hr := List.mem_of_getElem? hmem
    obtain ⟨v, hv⟩ := Option.isSome_iff_exists.1
      ((hlive hknown).2 f.closure c (hdue.closures _ _ hclosure) hr)
    obtain ⟨u, hget⟩ := exists_cell hv
    obtain ⟨u', hget'⟩ := hdue.held _ _ hclosure r hr u hget
    have hcontent := hdue.forth r u' v hget' hv
    rw [← opcode?_collectIfDue] at hop
    obtain ⟨m', hread, hstack⟩ := instruction_upvalueGet hop hcell hcontent
    rw [stack_collectIfDue] at hstack
    exact ⟨v, m', hstep.trans hread, hstack, hlatest hcontent⟩
  · have hopen {r : Ref} (hknown : Known ms t r) (hslot : (ms t).heap.openSlot? r = some k) :
        r ∈ (ms t).openUpvalues := by
      have hget := Heap.openSlot?_eq_some.1 hslot
      obtain ⟨v, hv⟩ := Option.isSome_iff_exists.1 ((hlive hknown).1 _ hget)
      rcases content?_cases hv with hclosed | ⟨hmem, -⟩
      · rw [hget] at hclosed
        cases hclosed
      · exact hmem
    exact hm.lined.eq_of_slot (hopen hr hk) (hopen hr' hk') hk hk'
  · rw [hstep] at hends
    have hframes : ∃ f rest, (ms t).collectIfDue.frames = f :: rest := by
      cases hframes : (ms t).collectIfDue.frames with
      | cons f rest => exact ⟨f, rest, rfl⟩
      | nil =>
        rw [instruction_of_nil host hframes] at hends
        cases hends
    obtain ⟨f, rest, hframes⟩ := hframes
    exact hlatest ((finishes_instruction hsparing hframes hends).back hdue.ordered hfree hv)

theorem Follows.sharesCells (ht : t < n) : SharesCells ms t := by
  have hm := hfollows.ordered hdiscreet hsparing hlaunched htidy hrespects (Nat.le_of_lt ht)
  have hdue := carries_collectIfDue hm
  have hhandled := hfollows.handled hsparing ht
  have hmoves := hfollows.moves hdiscreet hsparing hlaunched htidy hrespects ht
  refine ⟨fun hop => ?_, fun r w u hclosed hget => ?_, fun r w hclosed hop hcell => ?_⟩
  · rw [← opcode?_collectIfDue] at hop
    have hmakes := hhandled.makes hdue.ordered hop
    rwa [frames_collectIfDue, stack_collectIfDue] at hmakes
  · obtain ⟨v, rfl⟩ := hmoves.closed r w u hclosed hget
    refine ⟨v, rfl, ?_⟩
    rcases hmoves.back r v (content?_closed hget) with hset | hsame
    · have hwrite := hset.of_closed hclosed
      rw [opcode?_collectIfDue, stack_collectIfDue] at hwrite
      exact Or.inr hwrite
    · rw [content?_closed hclosed] at hsame
      exact Or.inl (Option.some.inj hsame).symm
  · rw [← opcode?_collectIfDue] at hop
    have hstack := hhandled.stack_of_closed hop hcell hclosed
    rwa [stack_collectIfDue] at hstack

end Run

/-- Captured variables are shared locations throughout a run, as long as none of them goes off the
stack as an operand. -/
theorem captured_variables_are_shared (hdiscreet : host.Discreet) (hsparing : host.Sparing)
    (hlaunched : Launched host (ms 0)) (htidy : (ms 0).heap.Tidy) (hfollows : Follows host ms n)
    (hrespects : ∀ t < n, Respects host (ms t).collectIfDue (ms (t + 1))) :
    (∀ t ≤ n, SharesVariables host ms t) ∧ ∀ t < n, SharesCells ms t :=
  ⟨fun _ ht => hfollows.sharesVariables hdiscreet hsparing hlaunched htidy hrespects ht,
    fun _ ht => hfollows.sharesCells hdiscreet hsparing hlaunched htidy hrespects ht⟩

/-- A function that sets the variable it captures to one and reads it then. -/
def counter : Prototype :=
  let body := ((({} : Blob).pushOp .pushOne 1).pushOp .upvalueSet 1).pushShort 0 1
  { name := "counter", captured := 1
    blob := ((body.pushOp .upvalueGet 1).pushShort 0 1).pushOp .ret 1 }

/-- The states of a machine that runs a script with a variable that the counter captures, and a call
of the counter. -/
def counterStates : Nat → Machine :=
  states .idle (({ bare with heap := (bare.heap.alloc (.function counter)).2 } : Machine).entered
    (.script setterScript))

/-- The counter reads what it has written. -/
theorem captured_variables_are_shared_counter :
    (∀ t ≤ 7, SharesVariables .idle counterStates t) ∧ ∀ t < 7, SharesCells counterStates t := by
  have hlaunched : Launched .idle (counterStates 0) := .script rfl (fun _ => ⟨rfl, rfl, rfl⟩) _
  have hfollows : Follows .idle counterStates 7 :=
    follows_states (show ∀ t < 7, _ by decide +kernel)
  have hnew := Heap.founded_new 1024 2 false
  have htidy {h : Heap} (ht : h.Tidy) (o : Object) : (h.alloc o).2.Tidy :=
    ⟨ht.wellFormed.alloc o, ht.rest.alloc ht.wellFormed o⟩
  exact captured_variables_are_shared Host.discreet_idle Host.sparing_idle hlaunched
    (htidy (htidy (htidy ⟨hnew.wellFormed, hnew.rest⟩ _) _) _) hfollows (by decide +kernel)

end ScriptMachine.Machine
