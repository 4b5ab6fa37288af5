import ScriptMachine.Proofs.Machine.Captures.Contents
import ScriptMachine.Proofs.Machine.Footing.Instruction

/-!
Instructions and captured variables. As long as no captured variable is among the operands of an
instruction, the instruction changes the value of a variable only by writing it: the slot that it
still has, or the cell it has moved to. All the rest may move variables from slots into cells, and
may release the cells that nothing has captured any more.
-/

namespace ScriptMachine.Machine

variable {host : Host} {m m' q : Machine} {r s : Ref} {v w : Value} {k : Nat} {op : Opcode}

/-- How much of the stack an instruction leaves in place while it takes its operands: what is above
are operands, or new. An instruction that begins a call leaves the callee and the arguments that are
parameters, and a return takes its value only. -/
def footing (host : Host) (m m' : Machine) : Nat :=
  match m.raises? host with
  | some q => q.stack.size
  | none =>
    match m.opcode? with
    | none => m.stack.size
    | some .closeUpvalue => m.stack.size
    | some .endFinally => m.stack.size
    | some .ret => m.stack.size - 1
    | some op =>
      match m'.frames.head?.filter fun _ => m.frames.length < m'.frames.length with
      | some g => min (m.stack.size - op.supers) (g.base + 1 + g.proto.arity)
      | none => m'.stack.size - op.pushes

/-- An instruction takes no captured variable for an operand, and what a closure captures is on the
stack when the closure has been made. -/
structure Respects (host : Host) (m m' : Machine) : Prop where
  operands : ∀ k ∈ m.openSlots, k < footing host m m'
  captures : m.opcode? = some .makeClosure → ∀ k ∈ m'.openSlots, k < m'.stack.size

instance (host : Host) (m m' : Machine) : Decidable (Respects host m m') :=
  decidable_of_iff ((∀ k ∈ m.openSlots, k < footing host m m') ∧
      (m.opcode? = some .makeClosure → ∀ k ∈ m'.openSlots, k < m'.stack.size))
    ⟨fun h => ⟨h.1, h.2⟩, fun h => ⟨h.1, h.2⟩⟩

/-- The values that an instruction writes to captured variables. -/
inductive Sets (host : Host) (m m' : Machine) : Ref → Value → Prop where
  /-- A variable is captured for the first time. -/
  | captured {r : Ref} {k : Nat} {v : Value} (hop : m.opcode? = some .makeClosure)
      (hvacant : m.heap.get? r = none) (hopen : r ∈ m'.openUpvalues)
      (hslot : m'.heap.openSlot? r = some k) (hv : m'.stack[k]? = some v) : Sets host m m' r v
  /-- The slot of a variable is assigned, directly or through a cell. -/
  | assigned {r : Ref} {k : Nat} {v : Value} (hcalm : m.raises? host = none)
      (hassignment : m.assignment? = some (k, v)) (hopen : r ∈ m.openUpvalues)
      (hslot : m.heap.openSlot? r = some k) : Sets host m m' r v
  /-- A closed variable is assigned. -/
  | closed {r : Ref} {v w : Value} (hcalm : m.raises? host = none)
      (hop : m.opcode? = some .upvalueSet) (hcell : m.cell? = some r)
      (hclosed : m.heap.get? r = some (.upvalue (.closed w))) (hv : m.stack.back? = some v) :
      Sets host m m' r v
  /-- The value in the slot of a variable is replaced where it stands, as a call does with the
  callee. -/
  | replaced {r : Ref} {k : Nat} {v : Value}
      (hplace : m.callee? = some k ∨ m.replaced? = some k) (hopen : r ∈ m.openUpvalues)
      (hslot : m.heap.openSlot? r = some k)
      (hv : ((m.raises? host).getD m').stack[k]? = some v) : Sets host m m' r v

/-- Captured variables after an instruction that writes some of them. -/
structure Moves (writes : Ref → Value → Prop) (m m' : Machine) : Prop where
  ordered : m'.Ordered
  opened : ∀ r ∈ m'.openUpvalues, r ∈ m.openUpvalues ∨
    m.heap.get? r = none ∧ ∃ v, writes r v
  cells : ∀ r u, m'.heap.get? r = some (.upvalue u) → (∃ u', m.heap.get? r = some (.upvalue u')) ∨
    m.heap.get? r = none ∧ (m'.content? r).isSome
  back : ∀ r v, m'.content? r = some v → writes r v ∨ m.content? r = some v
  written : ∀ r w v, writes r w → m'.content? r = some v → w = v
  forth : ∀ r u v, m'.heap.get? r = some (.upvalue u) → m.content? r = some v →
    (m'.content? r).isSome
  held : ∀ s c, m'.heap.get? s = some (.closure c) → ∀ r ∈ c.upvalues, (m'.content? r).isSome ∨
    ∃ s' c', m.heap.get? s' = some (.closure c') ∧ r ∈ c'.upvalues ∧
      ∀ u, m.heap.get? r = some (.upvalue u) → ∃ u', m'.heap.get? r = some (.upvalue u')
  closed : ∀ r w u, m.heap.get? r = some (.upvalue (.closed w)) →
    m'.heap.get? r = some (.upvalue u) → ∃ w', u = .closed w'

variable {writes : Ref → Value → Prop}

theorem Carries.moves (h : Carries m m') (hnone : ∀ r w, ¬ writes r w) : Moves writes m m' where
  ordered := h.ordered
  opened r hr := Or.inl (h.opened r hr)
  cells r u hget := Or.inl (h.cells r u hget)
  back r v hv := Or.inr (h.back r v hv)
  written r w v hw := absurd hw (hnone r w)
  forth r u v hget hv := by rw [h.forth r u v hget hv]; rfl
  held s c hget r hr := Or.inr ⟨s, c, h.closures s c hget, hr, h.held s c hget r hr⟩
  closed r w u hclosed hget := ⟨w, h.closed r w u hclosed hget⟩

/-- What follows the writes only carries variables along. -/
theorem Moves.carry (h : Moves writes m q) (h' : Carries q m') : Moves writes m m' where
  ordered := h'.ordered
  opened r hr := h.opened r (h'.opened r hr)
  cells r u hget := by
    obtain ⟨u', hbetween⟩ := h'.cells r u hget
    rcases h.cells r u' hbetween with hcell | ⟨hvacant, hsome⟩
    · exact Or.inl hcell
    · obtain ⟨v, hv⟩ := Option.isSome_iff_exists.1 hsome
      exact Or.inr ⟨hvacant, by rw [h'.forth r u v hget hv]; rfl⟩
  back r v hv := h.back r v (h'.back r v hv)
  written r w v hw hv := h.written r w v hw (h'.back r v hv)
  forth r u v hget hv := by
    obtain ⟨u', hbetween⟩ := h'.cells r u hget
    obtain ⟨v', hv'⟩ := Option.isSome_iff_exists.1 (h.forth r u' v hbetween hv)
    rw [h'.forth r u v' hget hv']
    rfl
  held s c hget r hr := by
    have hbetween := h'.closures s c hget
    rcases h.held s c hbetween r hr with hsome | ⟨s', c', hclosure, hmem, hkept⟩
    · obtain ⟨v, hv⟩ := Option.isSome_iff_exists.1 hsome
      obtain ⟨u, hcell⟩ := exists_cell hv
      obtain ⟨u', hcell'⟩ := h'.held s c hget r hr u hcell
      exact Or.inl (by rw [h'.forth r u' v hcell' hv]; rfl)
    · refine Or.inr ⟨s', c', hclosure, hmem, fun u hcell => ?_⟩
      obtain ⟨u', hcell'⟩ := hkept u hcell
      exact h'.held s c hget r hr u' hcell'
  closed r w u hclosed hget := by
    obtain ⟨u', hbetween⟩ := h'.cells r u hget
    obtain ⟨w', rfl⟩ := h.closed r w u' hclosed hbetween
    exact ⟨w', h'.closed r w' u hbetween hget⟩

/-! What the next instruction does not refer to. -/

theorem forall_opcode {p : Opcode → Prop} (hop : m.opcode? = some op) (hp : p op) :
    ∀ op' ∈ m.opcode?, p op' := by
  intro op' hmem
  obtain rfl := Option.some.inj (hop.symm.trans hmem)
  exact hp

theorem callee?_eq_none (hop : ∀ op ∈ m.opcode?, ∀ blob ip, op.reach? blob ip = none) :
    m.callee? = none := by
  unfold callee? reach?
  cases m.frames.head? with
  | none => rfl
  | some f =>
    cases hopcode : m.opcode? with
    | none => rfl
    | some op =>
      rw [Option.bind_some, Option.bind_some, hop op hopcode]
      rfl

/-- An instruction that replaces nothing where it stands. -/
theorem not_replaced (hop : ∀ op ∈ m.opcode?,
      (∀ blob ip, op.reach? blob ip = none) ∧ op ≠ .stringify ∧ op ≠ .getSuper) :
    ¬ (m.callee? = some k ∨ m.replaced? = some k) := by
  rw [callee?_eq_none fun op hmem => (hop op hmem).1]
  rintro (hcallee | hreplaced)
  · cases hcallee
  · unfold replaced? at hreplaced
    split at hreplaced
    · exact (hop _ ‹_›).2.1 rfl
    · exact (hop _ ‹_›).2.2 rfl
    · cases hreplaced

/-- An assignment through a closed cell is not one to a slot. -/
theorem assignment?_of_closed (hop : m.opcode? = some .upvalueSet) (hcell : m.cell? = some r)
    (hclosed : m.heap.get? r = some (.upvalue (.closed w))) : m.assignment? = none := by
  unfold assignment?
  rw [hop]
  dsimp only
  rw [hcell, Option.bind_some, Heap.openSlot?_of_closed hclosed]
  rfl

/-! What an instruction writes, by its opcode. -/

theorem not_sets_of_departs (hop : ∀ op ∈ m.opcode?, op.departs = true) :
    ¬ Sets host m m' r w := by
  have hne {op : Opcode} (hstays : op.departs = false) : m.opcode? ≠ some op := by
    intro heq
    have hdeparts := hop op heq
    rw [hstays] at hdeparts
    cases hdeparts
  rintro (⟨hmakes, -⟩ | ⟨-, hassignment, -⟩ | ⟨-, hsets, -⟩ | ⟨hplace, -⟩)
  · exact hne rfl hmakes
  · unfold assignment? at hassignment
    split at hassignment
    · exact hne rfl ‹_›
    · exact hne rfl ‹_›
    · exact hne rfl ‹_›
    · cases hassignment
  · exact hne rfl hsets
  · refine not_replaced (fun op hmem => ⟨?_, ?_, ?_⟩) hplace
    · have hdeparts := hop op hmem
      cases op <;> first | exact fun _ _ => rfl | cases hdeparts
    · rintro rfl
      exact hne rfl hmem
    · rintro rfl
      exact hne rfl hmem

/-- Making a closure writes the variables that are captured for the first time. -/
theorem Sets.of_makeClosure (h : Sets host m m' r v) (hop : m.opcode? = some .makeClosure) :
    r ∈ m'.openUpvalues ∧ ∃ k, m'.heap.openSlot? r = some k ∧ m'.stack[k]? = some v := by
  cases h with
  | captured _ _ hopen hslot hv => exact ⟨hopen, _, hslot, hv⟩
  | assigned _ hassignment _ _ =>
    unfold assignment? at hassignment
    rw [hop] at hassignment
    cases hassignment
  | closed _ hsets _ _ _ =>
    rw [hop] at hsets
    cases hsets
  | replaced hplace _ _ _ =>
    exact absurd hplace (not_replaced (forall_opcode hop ⟨fun _ _ => rfl, nofun, nofun⟩))

/-- A write through a closed cell writes its variable only. -/
theorem Sets.of_upvalueSet (h : Sets host m m' s v) (hop : m.opcode? = some .upvalueSet)
    (hcell : m.cell? = some r) (hclosed : m.heap.get? r = some (.upvalue (.closed w))) :
    r = s ∧ m.stack.back? = some v := by
  cases h with
  | captured hmakes _ _ _ _ =>
    rw [hop] at hmakes
    cases hmakes
  | assigned _ hassignment _ _ =>
    rw [assignment?_of_closed hop hcell hclosed] at hassignment
    cases hassignment
  | closed _ _ hcell' _ hv => exact ⟨Option.some.inj (hcell.symm.trans hcell'), hv⟩
  | replaced hplace _ _ _ =>
    exact absurd hplace (not_replaced (forall_opcode hop ⟨fun _ _ => rfl, nofun, nofun⟩))

/-! Instructions that spare captured variables, but for one slot. -/

/-- All captured variables keep their slots, and what is written there is accounted for. -/
theorem moves_spares (hm : m.Ordered) (hspares : m.Spares m')
    (hroom : ∀ k ∈ m.openSlots, k < m'.stack.size)
    (hback : ∀ r k v, r ∈ m.openUpvalues → m.heap.openSlot? r = some k → m'.stack[k]? = some v →
      writes r v ∨ m.stack[k]? = some v)
    (hwritten : ∀ r w u, writes r w → m'.heap.get? r = some (.upvalue u) → r ∈ m.openUpvalues ∧
      ∃ k, m.heap.openSlot? r = some k ∧ m'.stack[k]? = some w) :
    Moves writes m m' := by
  have hspared := hspares.heap hm.tidy
  have hordered := hspares.ordered hm hroom
  have hopened {r : Ref} (hr : r ∈ m.openUpvalues) : r ∈ m'.openUpvalues := hspares.openUpvalues ▸ hr
  refine ⟨hordered, fun r hr => Or.inl (hspares.openUpvalues ▸ hr),
    fun r u hget => Or.inl ⟨u, hspares.cell hm hget⟩, ?_, ?_, ?_, ?_, ?_⟩
  · intro r v hv
    rcases content?_cases hv with hclosed | ⟨hopen, k, hk, hslot⟩
    · exact Or.inr (content?_closed (hspares.cell hm hclosed))
    · rw [hspares.openUpvalues] at hopen
      rw [hspares.openSlot? hm hopen] at hk
      rw [content?_opened hopen hk]
      exact hback r k v hopen hk hslot
  · intro r w v hw hv
    obtain ⟨u, hget⟩ := exists_cell hv
    obtain ⟨hopen, k, hk, hslot⟩ := hwritten r w u hw hget
    rw [content?_opened (hopened hopen) ((hspares.openSlot? hm hopen).trans hk), hslot] at hv
    exact Option.some.inj hv
  · intro r u v hget hv
    rcases content?_cases hv with hclosed | ⟨hopen, -⟩
    · rw [hspares.cell hm hget] at hclosed
      cases hclosed
      rw [content?_closed hget]
      rfl
    · exact hordered.isSome_content? (hopened hopen)
  · intro s c hget r hr
    exact Or.inr ⟨s, c, hspared.old s (.closure c) rfl hget, hr,
      fun u hcell => ⟨u, hspared.captured s c hget r hr u hcell⟩⟩
  · intro r w u hclosed hget
    rw [hspares.cell hm hget] at hclosed
    cases hclosed
    exact ⟨w, rfl⟩

/-- A variable that is assigned has its slot in a machine whose captured variables are spared. -/
theorem Sets.slot (hm : m.Ordered) (hspares : m.Spares q) (hcalm : m.raises? host = none)
    (hassigned : ∀ s ∈ m.assignment?, m'.stack[s.1]? = some s.2)
    (hopen : m.opcode? = some .upvalueSet → m.assignment? ≠ none) {u : Upvalue}
    (hw : Sets host m m' r w) (hget : q.heap.get? r = some (.upvalue u)) :
    r ∈ m.openUpvalues ∧ ∃ k, m.heap.openSlot? r = some k ∧ m'.stack[k]? = some w := by
  cases hw with
  | captured _ hvacant _ _ _ =>
    rw [hspares.cell hm hget] at hvacant
    cases hvacant
  | assigned _ hassignment hr hk => exact ⟨hr, _, hk, hassigned _ hassignment⟩
  | closed _ hop hcell hclosed _ => exact absurd (assignment?_of_closed hop hcell hclosed) (hopen hop)
  | replaced _ hr hk hv =>
    rw [hcalm] at hv
    exact ⟨hr, _, hk, hv⟩

theorem moves_works (hm : m.Ordered) (hcalm : m.raises? host = none) (hspares : m.Spares m')
    (hroom : ∀ k ∈ m.openSlots, k + op.pushes < m'.stack.size)
    (hrests : Rests op.pushes m.touched? m.stack m'.stack)
    (hassigned : ∀ s ∈ m.assignment?, m'.stack[s.1]? = some s.2)
    (hopen : m.opcode? = some .upvalueSet → m.assignment? ≠ none) :
    Moves (Sets host m m') m m' := by
  refine moves_spares hm hspares (fun k hk => ?_) (fun r k v hr hk hv => ?_)
    fun r w u hw hget => hw.slot hm hspares hcalm hassigned hopen hget
  · have hlt := hroom k hk
    omega
  · by_cases htouched : m.touched? = some k
    · left
      cases hassignment : m.assignment? with
      | some a =>
        rw [touched?_of_assignment hassignment] at htouched
        obtain rfl := Option.some.inj htouched
        rw [hassigned a hassignment] at hv
        exact .assigned hcalm (Option.some.inj hv ▸ hassignment) hr hk
      | none =>
        have hplace : m.callee? = some k ∨ m.replaced? = some k := by
          unfold touched? at htouched
          rw [hassignment] at htouched
          cases hcallee : m.callee? with
          | some j =>
            rw [hcallee] at htouched
            exact Or.inl htouched
          | none =>
            rw [hcallee] at htouched
            exact Or.inr htouched
        exact .replaced hplace hr hk (by rw [hcalm]; exact hv)
    · right
      rw [← hrests k (hroom k (mem_openSlots hr hk)) htouched]
      exact hv

/-- What an instruction has done that raises an exception. -/
theorem moves_raises (hm : m.Ordered) (hraises : m.raises? host = some q) (hspares : m.Spares q)
    (hroom : ∀ k ∈ m.openSlots, k < q.stack.size) (hrests : Rests 0 m.callee? m.stack q.stack) :
    Moves (Sets host m m') m q := by
  refine moves_spares hm hspares hroom (fun r k v hr hk hv => ?_) fun r w u hw hget => ?_
  · by_cases hcallee : m.callee? = some k
    · exact Or.inl (.replaced (Or.inl hcallee) hr hk (by rw [hraises]; exact hv))
    · right
      rw [← hrests k (hroom k (mem_openSlots hr hk)) hcallee]
      exact hv
  · cases hw with
    | captured _ hvacant _ _ _ =>
      rw [hspares.cell hm hget] at hvacant
      cases hvacant
    | assigned hcalm _ _ _ => rw [hraises] at hcalm; cases hcalm
    | closed hcalm _ _ _ _ => rw [hraises] at hcalm; cases hcalm
    | replaced _ hr hk hv =>
      rw [hraises] at hv
      exact ⟨hr, _, hk, hv⟩

/-! Writing a closed cell. -/

/-- A closed cell has been written, and all else that variables depend on is as before. -/
structure Rewrites (r : Ref) (v : Value) (m m' : Machine) : Prop where
  closed : ∃ w, m.heap.get? r = some (.upvalue (.closed w))
  heap : m'.heap = m.heap.update r fun _ => .upvalue (.closed v)
  openUpvalues : m'.openUpvalues = m.openUpvalues
  stack : m'.stack = m.stack

namespace Rewrites

theorem get? (h : Rewrites r v m m') (s : Ref) :
    m'.heap.get? s = if r = s then some (.upvalue (.closed v)) else m.heap.get? s := by
  obtain ⟨w, hclosed⟩ := h.closed
  rw [h.heap, Heap.get?_update]
  by_cases hs : r = s
  · subst hs
    rw [if_pos rfl, if_pos rfl, hclosed]
    rfl
  · rw [if_neg hs, if_neg hs]

theorem openSlot? (h : Rewrites r v m m') (s : Ref) :
    m'.heap.openSlot? s = m.heap.openSlot? s := by
  obtain ⟨w, hclosed⟩ := h.closed
  rw [h.heap]
  refine Heap.openSlot?_update (fun o ho => ?_) s
  obtain rfl := Option.some.inj (hclosed.symm.trans ho)
  rfl

theorem content? (h : Rewrites r v m m') (s : Ref) :
    m'.content? s = if r = s then some v else m.content? s := by
  by_cases hs : r = s
  · rw [if_pos hs]
    exact content?_closed ((h.get? s).trans (if_pos hs))
  · rw [if_neg hs]
    unfold Machine.content?
    rw [h.get? s, if_neg hs, h.openUpvalues, h.stack]

theorem cell (h : Rewrites r v m m') {u : Upvalue} (hs : m'.heap.get? s = some (.upvalue u)) :
    ∃ u', m.heap.get? s = some (.upvalue u') := by
  rw [h.get? s] at hs
  split at hs
  · rename_i hrs
    obtain ⟨w, hclosed⟩ := h.closed
    exact ⟨_, hrs ▸ hclosed⟩
  · exact ⟨u, hs⟩

theorem closure (h : Rewrites r v m m') {c : Closure}
    (hs : m'.heap.get? s = some (.closure c)) : m.heap.get? s = some (.closure c) := by
  rw [h.get? s] at hs
  split at hs
  · cases hs
  · exact hs

theorem ordered (h : Rewrites r v m m') (hm : m.Ordered) : m'.Ordered := by
  refine ⟨?_, ?_, fun k hk => ?_⟩
  · rw [h.heap]
    exact ⟨hm.tidy.wellFormed.update r _, hm.tidy.rest.update r _⟩
  · rw [h.openUpvalues]
    exact hm.lined.of_same fun s _ => h.openSlot? s
  · obtain ⟨s, hs, hk⟩ := Heap.mem_openSlots.1 hk
    rw [h.openUpvalues] at hs
    rw [h.openSlot? s] at hk
    rw [h.stack]
    exact hm.within k (mem_openSlots hs hk)

end Rewrites

theorem moves_writes (hm : m.Ordered) (hcalm : m.raises? host = none)
    (hop : m.opcode? = some .upvalueSet) (hcell : m.cell? = some r) (hv : m.stack.back? = some v)
    (h : Rewrites r v m m') : Moves (Sets host m m') m m' := by
  obtain ⟨w, hclosed⟩ := h.closed
  refine ⟨h.ordered hm, fun s hs => Or.inl (h.openUpvalues ▸ hs), fun s u hs => Or.inl (h.cell hs),
    fun s v' hv' => ?_, fun s w' v' hsets hv' => ?_, fun s u v' _ hv' => ?_,
    fun s c hs r' hr' => ?_, fun s w' u hs hs' => ?_⟩
  · rw [h.content? s] at hv'
    split at hv'
    · rename_i hrs
      obtain rfl := Option.some.inj hv'
      exact Or.inl (hrs ▸ .closed hcalm hop hcell hclosed hv)
    · exact Or.inr hv'
  · obtain ⟨hrs, hback⟩ := hsets.of_upvalueSet hop hcell hclosed
    rw [h.content? s, if_pos hrs, ← hv, hback] at hv'
    exact Option.some.inj hv'
  · rw [h.content? s]
    split
    · rfl
    · rw [hv']
      rfl
  · refine Or.inr ⟨s, c, h.closure hs, hr', fun u hu => ?_⟩
    by_cases hrs : r = r'
    · exact ⟨_, (h.get? r').trans (if_pos hrs)⟩
    · exact ⟨u, ((h.get? r').trans (if_neg hrs)).trans hu⟩
  · rw [h.get? s] at hs'
    split at hs'
    · cases hs'
      exact ⟨v, rfl⟩
    · rw [hs] at hs'
      cases hs'
      exact ⟨w', rfl⟩

/-! Making a closure. -/

/-- A closure has been made. The objects of before are in place, a new cell is open, and a new
closure holds cells of variables that are on the stack, or cells that a closure had before. -/
structure Encloses (m m' : Machine) : Prop where
  ordered : m'.Ordered
  stack : ∀ k < m.stack.size, m'.stack[k]? = m.stack[k]?
  old : ∀ s o, m.heap.get? s = some o → m'.heap.get? s = some o
  cells : ∀ s u, m'.heap.get? s = some (.upvalue u) → m.heap.get? s = some (.upvalue u) ∨
    m.heap.get? s = none ∧ s ∈ m'.openUpvalues
  closures : ∀ s c, m'.heap.get? s = some (.closure c) → m.heap.get? s = some (.closure c) ∨
    ∀ r ∈ c.upvalues, r ∈ m'.openUpvalues ∨
      ∃ s' c', m.heap.get? s' = some (.closure c') ∧ r ∈ c'.upvalues
  kept : ∀ s ∈ m.openUpvalues, s ∈ m'.openUpvalues
  opened : ∀ s ∈ m'.openUpvalues, s ∈ m.openUpvalues ∨ m.heap.get? s = none

theorem encloses_makes {f : Frame} {offset : Nat} {function : Ref} {proto : Prototype}
    {cells : List Ref} (hm : m.Ordered) (hcaptures : Gathers f offset m cells q)
    (hheap : m'.heap = (q.heap.alloc (.closure { function, proto, upvalues := cells })).2)
    (hopen : m'.openUpvalues = q.openUpvalues) (hstack : m'.stack = m.stack.push v)
    (hwithin : ∀ k ∈ m'.openSlots, k < m'.stack.size) : Encloses m m' := by
  have hextends := hcaptures.extends hm.tidy hm.lined
  have hwf := hextends.tidy.wellFormed
  have hget (s : Ref) : m'.heap.get? s = _ := hheap ▸ Heap.get?_alloc hwf _ s
  have hslots : ∀ s ∈ q.openUpvalues, m'.heap.openSlot? s = q.heap.openSlot? s := by
    intro s hs
    obtain ⟨k, hk⟩ := hextends.lined.exists_slot hs
    rw [hk, hheap]
    exact Heap.openSlot?_alloc_of_open hwf _ hk
  refine ⟨⟨?_, ?_, hwithin⟩, fun k hk => ?_, fun s o hs => ?_, fun s u hs => ?_, fun s c hs => ?_,
    fun s hs => hopen ▸ hextends.kept s hs, fun s hs => hextends.opened s (hopen ▸ hs)⟩
  · rw [hheap]
    exact ⟨hwf.alloc _, hextends.tidy.rest.alloc hwf _⟩
  · rw [hopen]
    exact hextends.lined.of_same hslots
  · rw [hstack, Array.getElem?_push, if_neg (by omega)]
  · rw [hheap]
    exact hwf.get?_alloc_of_get? _ (hextends.old s o hs)
  · rw [hget s] at hs
    split at hs
    · cases hs
    · rw [hopen]
      exact hextends.fresh s _ hs
  · rw [hget s] at hs
    split at hs
    · cases hs
      refine Or.inr fun r hr => ?_
      obtain ⟨i, hi⟩ := List.mem_iff_getElem?.1 hr
      cases hcaptures.captured hm.tidy hm.lined hi with
      | own _ _ _ hmem _ => exact Or.inl (hopen ▸ hmem)
      | shared _ _ hclosure hcell =>
        exact Or.inr ⟨f.closure, _, hclosure, List.mem_of_getElem? hcell⟩
    · exact Or.inl (hextends.closure hs)

/-- A variable from before has the value that it had. -/
theorem Encloses.back (h : Encloses m m') (hm : m.Ordered) (hv : m'.content? r = some v) :
    m.content? r = some v ∨ m.heap.get? r = none ∧ r ∈ m'.openUpvalues ∧
      ∃ k, m'.heap.openSlot? r = some k ∧ m'.stack[k]? = some v := by
  rcases content?_cases hv with hclosed | ⟨hmem, k, hk, hslot⟩
  · rcases h.cells r _ hclosed with hbefore | ⟨-, hmem⟩
    · exact Or.inl (content?_closed hbefore)
    · obtain ⟨k, hk⟩ := h.ordered.lined.exists_slot hmem
      rw [Heap.openSlot?_of_closed hclosed] at hk
      cases hk
  · rcases h.opened r hmem with hbefore | hnone
    · obtain ⟨j, hj⟩ := hm.lined.exists_slot hbefore
      have hsame := Heap.openSlot?_eq_some.2 (h.old r _ (Heap.openSlot?_eq_some.1 hj))
      obtain rfl := Option.some.inj (hk.symm.trans hsame)
      rw [h.stack k (hm.within k (mem_openSlots hbefore hj))] at hslot
      exact Or.inl ((content?_opened hbefore hj).trans hslot)
    · exact Or.inr ⟨hnone, hmem, k, hk, hslot⟩

theorem Encloses.moves (h : Encloses m m') (hm : m.Ordered)
    (hop : m.opcode? = some .makeClosure) : Moves (Sets host m m') m m' := by
  refine ⟨h.ordered, fun s hs => ?_, fun s u hs => ?_, fun s v hv => ?_, fun s w v hsets hv => ?_,
    fun s u v _ hv => ?_, fun s c hs r hr => ?_, fun s w u hs hs' => ?_⟩
  · rcases h.opened s hs with hbefore | hnone
    · exact Or.inl hbefore
    · obtain ⟨k, hk⟩ := h.ordered.lined.exists_slot hs
      have hlt := h.ordered.within k (mem_openSlots hs hk)
      exact Or.inr ⟨hnone, m'.stack[k], .captured hop hnone hs hk (Array.getElem?_eq_getElem hlt)⟩
  · rcases h.cells s u hs with hbefore | ⟨hnone, hmem⟩
    · exact Or.inl ⟨u, hbefore⟩
    · exact Or.inr ⟨hnone, h.ordered.isSome_content? hmem⟩
  · rcases h.back hm hv with hbefore | ⟨hnone, hmem, k, hk, hslot⟩
    · exact Or.inr hbefore
    · exact Or.inl (.captured hop hnone hmem hk hslot)
  · obtain ⟨hmem, k, hk, hslot⟩ := hsets.of_makeClosure hop
    rw [content?_opened hmem hk, hslot] at hv
    exact Option.some.inj hv
  · rcases content?_cases hv with hclosed | ⟨hmem, -⟩
    · rw [content?_closed (h.old s _ hclosed)]
      rfl
    · exact h.ordered.isSome_content? (h.kept s hmem)
  · rcases h.closures s c hs with hbefore | hcells
    · exact Or.inr ⟨s, c, hbefore, hr, fun u hu => ⟨u, h.old r _ hu⟩⟩
    · rcases hcells r hr with hmem | ⟨s', c', hclosure, hmem⟩
      · exact Or.inl (h.ordered.isSome_content? hmem)
      · exact Or.inr ⟨s', c', hclosure, hmem, fun u hu => ⟨u, h.old r _ hu⟩⟩
  · rw [h.old s _ hs] at hs'
    cases hs'
    exact ⟨w, rfl⟩

/-! Beginning a call. -/

theorem moves_calls {g : Frame} (hm : m.Ordered) (hcalm : m.raises? host = none)
    (hcallee : m.callee? = some g.base) (hspares : m.Spares m') {size : Nat}
    (hsize : size ≤ m'.stack.size) (hfree : ∀ k ∈ m.openSlots, k < size)
    (hargs : ∀ i < size, i ≠ g.base → m'.stack[i]? = m.stack[i]?)
    (hassigned : m.assignment? = none) (hother : m.opcode? ≠ some .upvalueSet) :
    Moves (Sets host m m') m m' := by
  refine moves_spares hm hspares (fun k hk => ?_) (fun r k v hr hk hv => ?_)
    fun r w u hw hget => hw.slot hm hspares hcalm (by rw [hassigned]; nofun)
      (fun hop => absurd hop hother) hget
  · have hlt := hfree k hk
    omega
  · by_cases hbase : k = g.base
    · subst hbase
      exact Or.inl (.replaced (Or.inl hcallee) hr hk (by rw [hcalm]; exact hv))
    · right
      rw [← hargs k (hfree k (mem_openSlots hr hk)) hbase]
      exact hv

/-! One instruction. -/

theorem footing_of_stays (hcalm : m.raises? host = none) (hop : m.opcode? = some op)
    (hstays : op.departs = false) : footing host m m' =
      match m'.frames.head?.filter fun _ => m.frames.length < m'.frames.length with
      | some g => min (m.stack.size - op.supers) (g.base + 1 + g.proto.arity)
      | none => m'.stack.size - op.pushes := by
  unfold footing
  rw [hcalm, hop]
  cases op <;> first | rfl | cases hstays

/-- As long as the run goes on in the same call. -/
theorem footing_of_length (hcalm : m.raises? host = none) (hop : m.opcode? = some op)
    (hstays : op.departs = false) (hlength : m'.frames.length = m.frames.length) :
    footing host m m' = m'.stack.size - op.pushes := by
  rw [footing_of_stays hcalm hop hstays, hlength]
  cases m'.frames.head? <;> simp

theorem footing_of_departs (hcalm : m.raises? host = none)
    (hop : ∀ op ∈ m.opcode?, op.departs = true) : footing host m m' = m.departing.stack.size := by
  unfold footing departing
  rw [hcalm]
  cases hopcode : m.opcode? with
  | none => rfl
  | some op =>
    have hdeparts := hop op hopcode
    cases op <;> first | rfl | exact Array.size_pop.symm | cases hdeparts

theorem carries_departing (hm : m.Ordered) (hfree : ∀ k ∈ m.openSlots, k < m.departing.stack.size) :
    Carries m m.departing := by
  by_cases hop : m.opcode? = some .ret
  · rw [departing_of_ret hop] at hfree ⊢
    refine carries_pop hm (fun k hk => ?_) rfl rfl rfl
    have hlt := hfree k hk
    rwa [← Array.size_pop]
  · rw [departing_eq hop]
    exact .refl hm

theorem moves_of_footprint (hm : m.Ordered) (hcalm : m.raises? host = none)
    (hfootprint : Footprint m m') (hrespects : Respects host m m') :
    Moves (Sets host m m') m m' := by
  have hfree := hrespects.operands
  cases hfootprint with
  | works hop hstays hlength hspares hrests hassigned _ hopen =>
    rw [footing_of_length hcalm hop hstays hlength] at hfree
    refine moves_works hm hcalm hspares (fun k hk => ?_) hrests hassigned fun hsets => ?_
    · have hlt := hfree k hk
      omega
    · exact hopen (Option.some.inj (hop.symm.trans hsets))
  | writes hop _ hcell hclosed hv hheap hopen hstack =>
    exact moves_writes hm hcalm hop hcell hv ⟨⟨_, hclosed⟩, hheap, hopen, hstack⟩
  | makes _ hop _ hcaptures _ hheap hopen hstack =>
    have hmade := encloses_makes hm hcaptures hheap hopen hstack (hrespects.captures hop)
    exact hmade.moves hm hop
  | closes hop _ hheap hopen hstack =>
    have hclosed := carries_closeUpvalues hm (m.stack.size - 1)
    have hpopped := carries_pop hclosed.ordered
      (fun k hk => (openSlots_closeUpvalues hm _ k hk).1) hheap hopen hstack
    exact (hclosed.trans hpopped).moves fun r w => not_sets_of_departs (forall_opcode hop rfl)
  | @calls op g outer m' hop hstays hframes hlength hcallee hspares _ hsize hargs =>
    rw [footing_of_stays hcalm hop hstays, hframes] at hfree
    have hlonger : m.frames.length < m'.frames.length := by omega
    rw [hframes] at hlonger
    simp only [List.head?_cons, Option.filter_some, decide_eq_true hlonger, if_true] at hfree
    have hother {op' : Opcode} (hreach : ∀ blob ip, op'.reach? blob ip = none) : op' ≠ op := by
      rintro rfl
      rw [callee?_eq_none (forall_opcode hop hreach)] at hcallee
      cases hcallee
    refine moves_calls hm hcalm hcallee hspares hsize hfree hargs ?_ ?_
    · unfold assignment?
      rw [hop]
      split
      · exact absurd (Option.some.inj ‹_›).symm (hother fun _ _ => rfl)
      · exact absurd (Option.some.inj ‹_›).symm (hother fun _ _ => rfl)
      · exact absurd (Option.some.inj ‹_›).symm (hother fun _ _ => rfl)
      · rfl
    · rw [hop]
      intro heq
      exact hother (fun _ _ => rfl) (Option.some.inj heq).symm
  | departs hop hrecedes hlands =>
    rw [footing_of_departs hcalm hop] at hfree
    have hdeparting := carries_departing hm hfree
    have hrecedes := hrecedes.carries hdeparting.ordered
    exact ((hdeparting.trans hrecedes).trans (hlands.carries hrecedes.ordered)).moves
      fun r w => not_sets_of_departs hop
  | leaves _ hop _ hyields =>
    rw [footing_of_departs hcalm hop] at hfree
    have hdeparting := carries_departing hm hfree
    exact (hdeparting.trans (hyields.carries hdeparting.ordered)).moves
      fun r w => not_sets_of_departs hop

/-- An instruction changes no variable but those it writes, whether it ends in an exception or
not. -/
theorem Handled.moves (h : Handled host m m') (hm : m.Ordered) (hrespects : Respects host m m') :
    Moves (Sets host m m') m m' := by
  cases h with
  | carried hcalm hfootprint => exact moves_of_footprint hm hcalm hfootprint hrespects
  | @thrown e q p hraises hspares hrests hrecedes hlands =>
    have hfree := hrespects.operands
    unfold footing at hfree
    rw [hraises] at hfree
    have hraised : Moves (Sets host m m') m q := moves_raises hm hraises hspares hfree hrests
    have htraced : Carries q (q.attachTrace e) :=
      (spares_attachTrace q e).carries hraised.ordered fun _ _ => by rw [stack_attachTrace]
    have hleft := hrecedes.carries htraced.ordered
    exact hraised.carry ((htraced.trans hleft).trans (hlands.carries hleft.ordered))

/-! Reading a variable, making a closure, and writing a closed cell. -/

/-- The cell that the next instruction refers to is one of the running closure. -/
theorem exists_closure_of_cell (hcell : m.cell? = some r) :
    ∃ f rest n c, m.frames = f :: rest ∧ f.proto.blob.shortAt? (f.ip + 1) = some n ∧
      m.heap.get? f.closure = some (.closure c) ∧ c.upvalues[n.toNat]? = some r := by
  unfold cell? at hcell
  obtain ⟨f, hhead, hcell⟩ := Option.bind_eq_some_iff.1 hcell
  obtain ⟨n, hn, hcell⟩ := Option.bind_eq_some_iff.1 hcell
  obtain ⟨rest, hframes⟩ := List.head?_eq_some_iff.1 hhead
  split at hcell
  · exact ⟨f, rest, n, _, hframes, hn, ‹_›, hcell⟩
  · cases hcell

theorem instruction_upvalueGet (hop : m.opcode? = some .upvalueGet) (hcell : m.cell? = some r)
    (hv : m.content? r = some v) :
    ∃ m', instruction host m = .ok none m' ∧ m'.stack = m.stack.push v := by
  obtain ⟨f, rest, n, c, hframes, hn, hclosure, hr⟩ := exists_closure_of_cell hcell
  let behind := m.atOffset (f.ip + 3)
  have hmoved : behind.frames = { f with ip := f.ip + 3 } :: rest := frames_atOffset hframes _
  have hfound : frameUpvalue n.toNat behind = .ok r behind := by
    unfold frameUpvalue
    rw [bind_of_ok (frame_eq hmoved), get_bind]
    dsimp only
    rw [show behind.heap.get? f.closure = some (.closure c) from hclosure]
    dsimp only
    rw [hr]
    rfl
  have hread : readUpvalue n.toNat behind = .ok v behind := by
    unfold readUpvalue
    rw [bind_of_ok hfound, get_bind]
    rcases content?_cases hv with hclosed | ⟨-, k, hk, hslot⟩
    · rw [show behind.heap.get? r = some (.upvalue (.closed v)) from hclosed]
      rfl
    · rw [show behind.heap.get? r = some (.upvalue (.opened k)) from Heap.openSlot?_eq_some.1 hk]
      dsimp only
      rw [show behind.stack[k]? = some v from hslot]
      rfl
  have hshort : fetchShort (m.atOffset (f.ip + 1)) = .ok n behind := by
    have hfirst := frames_atOffset hframes (f.ip + 1)
    rcases reads_fetchShort _ _ _ hfirst with ⟨n', hn', hok⟩ | ⟨hnone, -⟩
    · rw [hn] at hn'
      obtain rfl := Option.some.inj hn'
      rwa [atOffset_atOffset] at hok
    · rw [hn] at hnone
      cases hnone
  have hexecute : execute host f.ip .upvalueGet (m.atOffset (f.ip + 1)) =
      .ok none { behind with stack := behind.stack.push v } := by
    show proceed (fetchShort >>= fun n => readUpvalue n.toNat >>= push) (m.atOffset (f.ip + 1)) = _
    unfold proceed
    rw [bind_assoc, bind_of_ok hshort, bind_assoc, bind_of_ok hread]
    rfl
  exact ⟨{ behind with stack := behind.stack.push v }, instruction_eq_ok hframes hop hexecute, rfl⟩

/-- A new closure has the cell of each capture. -/
theorem Handled.makes (h : Handled host m m') (hm : m.Ordered)
    (hop : m.opcode? = some .makeClosure) :
    ∃ f s c, m.frames.head? = some f ∧ m'.stack = m.stack.push (.ref s) ∧
      m'.heap.get? s = some (.closure c) ∧
      ∀ i r, c.upvalues[i]? = some r → Captured f (f.ip + 3 + 3 * i) m m' r := by
  cases h with
  | thrown hraises =>
    rw [raises?_makeClosure hop] at hraises
    cases hraises
  | carried hcalm hfootprint =>
    have hleaves (hdeparts : ∀ op ∈ m.opcode?, op.departs = true) : False :=
      nomatch hdeparts _ hop
    cases hfootprint with
    | works hworks _ _ _ _ _ _ _ hmakes =>
      exact absurd (Option.some.inj (hworks.symm.trans hop)) hmakes
    | writes hwrites =>
      rw [hop] at hwrites
      cases hwrites
    | @makes f rest function proto cells m' q hframes _ _ hcaptures _ hheap hopen hstack =>
      have hextends := hcaptures.extends hm.tidy hm.lined
      have hwf := hextends.tidy.wellFormed
      refine ⟨f, _, { function, proto, upvalues := cells }, by rw [hframes]; rfl, hstack,
        by rw [hheap, Heap.get?_alloc_self hwf], fun i r hi => ?_⟩
      cases hcaptures.captured hm.tidy hm.lined hi with
      | own hflag hset hindex hmem hslot =>
        refine .own hflag hset hindex (hopen ▸ hmem) ?_
        rw [hheap]
        exact Heap.openSlot?_alloc_of_open hwf _ hslot
      | shared hflag hindex hclosure hcell => exact .shared hflag hindex hclosure hcell
    | closes hcloses =>
      rw [hop] at hcloses
      cases hcloses
    | calls _ _ _ _ hcallee =>
      rw [callee?_eq_none (forall_opcode hop fun _ _ => rfl)] at hcallee
      cases hcallee
    | departs hdeparts => exact (hleaves hdeparts).elim
    | leaves _ hdeparts => exact (hleaves hdeparts).elim

/-- A write through a closed cell leaves the stack alone. -/
theorem Handled.stack_of_closed (h : Handled host m m') (hop : m.opcode? = some .upvalueSet)
    (hcell : m.cell? = some r) (hclosed : m.heap.get? r = some (.upvalue (.closed w))) :
    m'.stack = m.stack := by
  cases h with
  | thrown hraises =>
    rw [raises?_upvalueSet hop] at hraises
    cases hraises
  | carried hcalm hfootprint =>
    have hleaves (hdeparts : ∀ op ∈ m.opcode?, op.departs = true) : False :=
      nomatch hdeparts _ hop
    cases hfootprint with
    | works hworks _ _ _ _ _ _ hopen =>
      have hnone := assignment?_of_closed hop hcell hclosed
      exact absurd hnone (hopen (Option.some.inj (hworks.symm.trans hop)))
    | writes _ _ _ _ _ _ _ hstack => exact hstack
    | makes _ hmakes =>
      rw [hop] at hmakes
      cases hmakes
    | closes hcloses =>
      rw [hop] at hcloses
      cases hcloses
    | calls _ _ _ _ hcallee =>
      rw [callee?_eq_none (forall_opcode hop fun _ _ => rfl)] at hcallee
      cases hcallee
    | departs hdeparts => exact (hleaves hdeparts).elim
    | leaves _ hdeparts => exact (hleaves hdeparts).elim

/-- Only a write through it changes a closed cell. -/
theorem Sets.of_closed (h : Sets host m m' r v)
    (hclosed : m.heap.get? r = some (.upvalue (.closed w))) :
    m.opcode? = some .upvalueSet ∧ m.cell? = some r ∧ m.stack.back? = some v := by
  have hshut {k : Nat} : m.heap.openSlot? r ≠ some k := by
    rw [Heap.openSlot?_of_closed hclosed]
    nofun
  cases h with
  | captured _ hvacant _ _ _ =>
    rw [hclosed] at hvacant
    cases hvacant
  | assigned _ _ _ hslot => exact absurd hslot hshut
  | closed _ hop hcell _ hv => exact ⟨hop, hcell, hv⟩
  | replaced _ _ hslot _ => exact absurd hslot hshut

/-- Only making a closure makes cells. -/
theorem Sets.of_vacant (h : Sets host m m' r v) (hvacant : m.heap.get? r = none) :
    m.opcode? = some .makeClosure := by
  have hshut {k : Nat} : m.heap.openSlot? r ≠ some k := by
    rw [Ne, Heap.openSlot?_eq_some, hvacant]
    simp
  cases h with
  | captured hop _ _ _ _ => exact hop
  | assigned _ _ _ hslot => exact absurd hslot hshut
  | closed _ _ _ hclosed _ =>
    rw [hvacant] at hclosed
    cases hclosed
  | replaced _ _ hslot _ => exact absurd hslot hshut

/-- A variable does not change with the end of a run. -/
theorem Finishes.back (h : Finishes m m') (hm : m.Ordered)
    (hfree : ∀ k ∈ m.openSlots, k < m.departing.stack.size) (hv : m'.content? r = some v) :
    m.content? r = some v := by
  rcases h with hrecedes | ⟨ip, rfl⟩
  · have hdeparting := carries_departing hm hfree
    exact (hdeparting.trans (hrecedes.carries hdeparting.ordered)).back r v hv
  · have hmoved : Carries m (m.atOffset ip) := carries_same hm rfl rfl fun _ _ => rfl
    exact (hmoved.trans (carries_reset hmoved.ordered)).back r v hv

end ScriptMachine.Machine
