import ScriptMachine.Proofs.Machine.Discretion

/-!
Ways out of regions and calls. A throw and a return leave regions one after the other, the innermost
first, and pass over those without a finally block that do not catch; at the first other one they
stop. A throw goes back to the call that entered the region, a return stays in its call and leaves
the call when no region of it is left.

All of this only sheds values and open variables besides.
-/

namespace ScriptMachine

/-- The region's handler takes an exception, as far as its class goes. -/
def Region.Takes (h : Heap) (r : Region) (e : Value) : Prop :=
  ∀ cls, r.filter? = some cls → h.isInstanceOf e cls = .found ()

/-- The outermost calls, with the innermost of them moved to an offset. -/
def resumeAt (frames : List Frame) (depth ip : Nat) : List Frame :=
  (frames.drop (frames.length - depth)).modifyHead fun f => { f with ip }

/-- Whether a signal is an exception that looks for its handler. -/
def Signal.isRaised : Signal → Bool
  | .raised _ => true
  | _ => false

namespace Machine

variable {host : Host} {m m' q : Machine}

/-- The machine with other calls, regions and completions. -/
def steer (m : Machine) (frames : List Frame) (regions : List Region)
    (completions : List Pending) : Machine := { m with frames, regions, completions }

/-- Values and open variables are dropped. -/
inductive Sheds (m : Machine) : Machine → Prop where
  | refl : Sheds m m
  | stack {m' : Machine} (hsheds : Sheds m m') (stack : Array Value) : Sheds m { m' with stack }
  | close {m' : Machine} (hsheds : Sheds m m') (start : Nat) : Sheds m (m'.closeUpvalues start)

namespace Sheds

theorem quiet (h : Sheds m m') : Quiet host m m' := by
  induction h with
  | refl => exact .refl
  | stack _ stack ih => exact ih.stack stack
  | close _ start ih => exact ih.close start

theorem trans {m'' : Machine} (h : Sheds m m') (h' : Sheds m' m'') : Sheds m m'' := by
  induction h' with
  | refl => exact h
  | stack _ stack ih => exact ih.stack stack
  | close _ start ih => exact ih.close start

theorem frames (h : Sheds m m') : m'.frames = m.frames := by
  induction h with
  | refl => rfl
  | stack _ _ ih => exact ih
  | close _ _ ih => exact ih

theorem regions (h : Sheds m m') : m'.regions = m.regions := by
  induction h with
  | refl => rfl
  | stack _ _ ih => exact ih
  | close _ _ ih => exact ih

theorem completions (h : Sheds m m') : m'.completions = m.completions := by
  induction h with
  | refl => rfl
  | stack _ _ ih => exact ih
  | close _ _ ih => exact ih

theorem kept (h : Sheds m m') : Kept host m m' := by
  induction h with
  | refl => exact .refl m
  | stack _ _ ih => exact ih.trans ⟨rfl, rfl, fun _ => rfl⟩
  | close _ _ ih => exact ih.trans ⟨rfl, rfl, fun _ => rfl⟩

/-- What is shed does not depend on calls, regions and completions. -/
theorem steer (h : Sheds m m') (frames : List Frame) (regions : List Region)
    (completions : List Pending) :
    Sheds (m.steer frames regions completions) (m'.steer frames regions completions) := by
  induction h with
  | refl => exact .refl
  | stack _ stack ih => exact ih.stack stack
  | close _ start ih => exact ih.close start

end Sheds

/-! Unwinding. -/

theorem sheds_closeAll (gone : List Frame) (m : Machine) :
    Sheds m (gone.foldl (fun m f => m.closeUpvalues f.base) m) := by
  induction gone generalizing m with
  | nil => exact .refl
  | cons f gone ih =>
    have hclosed : Sheds m (m.closeUpvalues f.base) := .close .refl _
    exact hclosed.trans (ih _)

theorem unwindTo_eq (m : Machine) (region : Region) (left : Nat) :
    ∃ q, Sheds m q ∧ m.unwindTo region left =
      q.steer (m.frames.drop (m.frames.length - region.frameDepth)) m.regions
        (m.completions.dropWhile fun p => decide (left < p.tryDepth)) := by
  let completions := m.completions.dropWhile fun p => decide (left < p.tryDepth)
  let dropped := m.steer m.frames m.regions completions
  let gone := dropped.frames.take (dropped.frames.length - region.frameDepth)
  let closed := gone.foldl (fun m f => m.closeUpvalues f.base) dropped
  have hclosed : Sheds dropped closed := sheds_closeAll gone dropped
  have hback : Sheds m (closed.steer m.frames m.regions m.completions) :=
    hclosed.steer m.frames m.regions m.completions
  refine ⟨_, (hback.close region.stackDepth).stack
    ((closed.closeUpvalues region.stackDepth).stack.shrink region.stackDepth), ?_⟩
  have hframes : closed.frames = m.frames := hclosed.frames
  have hregions : closed.regions = m.regions := hclosed.regions
  have hcompletions : closed.completions = completions := hclosed.completions
  have hpop : dropped.popFrames region.frameDepth =
      closed.steer (m.frames.drop (m.frames.length - region.frameDepth)) m.regions completions := by
    show closed.steer (closed.frames.drop (closed.frames.length - region.frameDepth)) closed.regions
      closed.completions = _
    rw [hframes, hregions, hcompletions]
  show ((dropped.popFrames region.frameDepth).closeUpvalues region.stackDepth).truncate
    region.stackDepth = _
  rw [hpop]
  rfl

theorem accepts_cases (region : Region) (e : Value) (m : Machine) :
    (∃ b, accepts region e m = .ok b m ∧ (b = true ↔ region.Takes m.heap e)) ∨
      accepts region e m = .error .endless m := by
  unfold accepts Region.Takes
  cases hfilter : region.filter? with
  | none => exact Or.inl ⟨true, rfl, by simp⟩
  | some cls =>
    dsimp only
    rw [get_bind]
    cases hfound : m.heap.isInstanceOf e cls with
    | found a =>
      cases a
      exact Or.inl ⟨true, rfl, by simp [hfound]⟩
    | absent => exact Or.inl ⟨false, rfl, by simp [hfound]⟩
    | endless => exact Or.inr rfl

theorem kept_reset (m : Machine) : Kept host m m.reset := ⟨rfl, rfl, fun _ => rfl⟩

theorem kept_writeReport (m : Machine) (text : String) : Kept host m (m.writeReport text) :=
  ⟨rfl, rfl, fun _ => rfl⟩

theorem kept_unhandled {α : Type} (e : Value) (m : Machine) :
    ∃ f m', (unhandled e : Exec α) m = .error (.fault f) m' ∧
      (Signal.fault f).blamesCode = false ∧ Kept host m m' := by
  unfold unhandled
  rw [get_bind]
  exact ⟨_, _, rfl, rfl, (kept_writeReport m _).trans (kept_reset _)⟩

/-! Throwing. -/

theorem quiet_internAll (m : Machine) (lines : List String) : Quiet host m (m.internAll lines).2 := by
  induction lines generalizing m with
  | nil => exact .refl
  | cons line rest ih =>
    have hline : Quiet host m (m.intern line).2 := .intern .refl line
    exact hline.trans (ih _)

theorem quiet_attachTrace (m : Machine) (e : Value) : Quiet host m (m.attachTrace e) := by
  unfold attachTrace
  split
  · have hlines : Quiet host m (m.internAll m.stackTrace).2 := quiet_internAll m _
    exact (hlines.alloc _ rfl).trans (quiet_setField _ _ _ _)
  · exact .refl

/-- How a thrown exception goes on at the region where the throw stops: in the handler, or in the
finally block with what comes after it. -/
inductive Stops (h : Heap) (region : Region) (e : Value) : Nat → Option Completion → Prop where
  | caught {handler : Nat} (htakes : region.Takes h e) (hhandler : region.handler? = some handler)
      (hfinally : region.finally? = none) : Stops h region e handler none
  | held {handler block : Nat} (htakes : region.Takes h e)
      (hhandler : region.handler? = some handler) (hfinally : region.finally? = some block) :
      Stops h region e block (some (.handle handler e))
  | passing {block : Nat} (hpasses : ¬ (region.Takes h e ∧ region.handler? ≠ none))
      (hfinally : region.finally? = some block) : Stops h region e block (some (.rethrow e))

/-- The completion of a finally block that begins when `regions` and `depth` calls are left. -/
def pendings (regions : List Region) (depth : Nat) (c : Option Completion) : List Pending :=
  (c.map fun completion => { tryDepth := regions.length, frameDepth := depth, completion }).toList

/-- The result of a throw from `m` through `regions`. -/
def Thrown (host : Host) (e : Value) (regions : List Region) (m : Machine) :
    EStateM.Result Signal Machine Unit → Prop
  | .ok _ m' =>
    ∃ (gone rest : List Region) (region : Region) (q : Machine) (ip : Nat) (c : Option Completion),
      regions = gone ++ region :: rest ∧ (∀ r ∈ gone, r.finally? = none) ∧
        Sheds m q ∧ Stops q.heap region e ip c ∧
        m' = q.steer (resumeAt m.frames region.frameDepth ip) rest
          (pendings rest region.frameDepth c ++
            m.completions.dropWhile fun p => decide (rest.length < p.tryDepth))
  | .error s m' => s.isRaised = false ∧ s.blamesCode = false ∧ Kept host m m'

/-- Leaving more regions drops no fewer completions. -/
theorem dropWhile_dropWhile (completions : List Pending) {left less : Nat} (hle : less ≤ left) :
    (completions.dropWhile fun p => decide (left < p.tryDepth)).dropWhile
        (fun p => decide (less < p.tryDepth)) =
      completions.dropWhile fun p => decide (less < p.tryDepth) := by
  induction completions with
  | nil => rfl
  | cons p rest ih =>
    by_cases hp : left < p.tryDepth
    · have hless : less < p.tryDepth := by omega
      rw [List.dropWhile_cons_of_pos (by simpa using hp), ih,
        List.dropWhile_cons_of_pos (by simpa using hless)]
    · rw [List.dropWhile_cons_of_neg (by simpa using hp)]

/-- Going back to an outer call in two steps. -/
theorem resumeAt_drop (frames : List Frame) {depth less : Nat} (hle : less ≤ depth) (ip : Nat) :
    resumeAt (frames.drop (frames.length - depth)) less ip = resumeAt frames less ip := by
  unfold resumeAt
  rw [List.drop_drop, List.length_drop]
  congr 2
  omega

/-- What the machine is like when a throw has gone back to where a region was entered. -/
structure Unwound (m : Machine) (region : Region) (rest : List Region) (back : Machine) : Prop where
  sheds : Sheds m (back.steer m.frames m.regions m.completions)
  frames : back.frames = m.frames.drop (m.frames.length - region.frameDepth)
  regions : back.regions = rest
  completions :
    back.completions = m.completions.dropWhile fun p => decide (rest.length < p.tryDepth)
  depth : back.frames.length = region.frameDepth

theorem unwound_unwindTo {region : Region} (rest : List Region)
    (hdepth : region.frameDepth ≤ m.frames.length) :
    m.Unwound region rest
      (({ m with regions := rest } : Machine).unwindTo region rest.length) := by
  obtain ⟨q, hsheds, hunwound⟩ :=
    unwindTo_eq ({ m with regions := rest } : Machine) region rest.length
  rw [hunwound]
  refine ⟨hsheds.steer m.frames m.regions m.completions, rfl, rfl, rfl, ?_⟩
  show (m.frames.drop (m.frames.length - region.frameDepth)).length = region.frameDepth
  rw [List.length_drop]
  omega

namespace Unwound

variable {region : Region} {rest : List Region} {back : Machine} {e : Value}

theorem exists_frame (h : m.Unwound region rest back) (hdepth : 1 ≤ region.frameDepth) :
    ∃ f outer, back.frames = f :: outer := by
  have hlength := h.depth
  cases hframes : back.frames with
  | nil =>
    rw [hframes, List.length_nil] at hlength
    omega
  | cons f outer => exact ⟨f, outer, rfl⟩

/-- The throw ends in the handler. -/
theorem thrown_caught (h : m.Unwound region rest back) (hdepth : 1 ≤ region.frameDepth)
    {handler : Nat} (hstops : Stops back.heap region e handler none) :
    Thrown host e (region :: rest) m ((do push e; jumpTo handler : Exec Unit) back) := by
  obtain ⟨f, outer, hframes⟩ := h.exists_frame hdepth
  let pushed : Machine := { back with stack := back.stack.push e }
  have hpush : push e back = .ok () pushed := rfl
  have hpushed : pushed.frames = f :: outer := hframes
  rw [bind_of_ok hpush, jumpTo_eq hpushed]
  refine ⟨[], rest, region, _, handler, none, rfl, nofun, h.sheds.stack (back.stack.push e),
    hstops, ?_⟩
  rw [resumeAt, ← h.frames, ← h.completions, ← h.regions]
  rfl

/-- The throw ends in the finally block. -/
theorem thrown_held (h : m.Unwound region rest back) (hdepth : 1 ≤ region.frameDepth)
    {block : Nat} {c : Completion} (hstops : Stops back.heap region e block (some c)) :
    Thrown host e (region :: rest) m ((do pushCompletion c; jumpTo block : Exec Unit) back) := by
  obtain ⟨f, outer, hframes⟩ := h.exists_frame hdepth
  let pending : Pending :=
    { tryDepth := back.regions.length, frameDepth := back.frames.length, completion := c }
  let pushed : Machine := { back with completions := pending :: back.completions }
  have hpush : pushCompletion c back = .ok () pushed := rfl
  have hpushed : pushed.frames = f :: outer := hframes
  rw [bind_of_ok hpush, jumpTo_eq hpushed]
  refine ⟨[], rest, region, _, block, some c, rfl, nofun, h.sheds, hstops, ?_⟩
  have hpending : pendings rest region.frameDepth (some c) = [pending] := by
    unfold pendings
    rw [← h.depth, ← h.regions]
    rfl
  rw [hpending, resumeAt, ← h.frames, ← h.completions, ← h.regions]
  rfl

/-- The throw passes over the region. -/
theorem thrown_on (h : m.Unwound region rest back) (hfinally : region.finally? = none)
    (hbelow : ∀ r ∈ rest, r.frameDepth ≤ region.frameDepth)
    {result : EStateM.Result Signal Machine Unit} (hthrown : Thrown host e rest back result) :
    Thrown host e (region :: rest) m result := by
  cases result with
  | ok a m' =>
    obtain ⟨gone, rest', region', q, ip, c, hrest, hgone, hsheds, hstops, rfl⟩ := hthrown
    have hless := hbelow region' (hrest ▸ List.mem_append_right gone List.mem_cons_self)
    have hshort : rest'.length ≤ rest.length := by
      rw [hrest, List.length_append, List.length_cons]
      omega
    refine ⟨region :: gone, rest', region', q.steer m.frames m.regions m.completions, ip, c,
      by rw [hrest]; rfl, ?_, ?_, hstops, ?_⟩
    · intro r hr
      rcases List.mem_cons.1 hr with rfl | hmem
      · exact hfinally
      · exact hgone r hmem
    · exact h.sheds.trans (hsheds.steer m.frames m.regions m.completions)
    · rw [h.frames, h.completions, resumeAt_drop m.frames hless, dropWhile_dropWhile _ hshort]
      rfl
  | error s m' =>
    obtain ⟨hraised, hblame, hkept⟩ := hthrown
    have hback : Kept host m (back.steer m.frames m.regions m.completions) := h.sheds.kept
    exact ⟨hraised, hblame, hback.trans ⟨hkept.settings, hkept.builtins, hkept.pinned⟩⟩

end Unwound

theorem thrown_propagateThrough (e : Value) {regions : List Region}
    (hsorted : regions.Pairwise fun r s => s.frameDepth ≤ r.frameDepth)
    (hdepths : ∀ r ∈ regions, 1 ≤ r.frameDepth ∧ r.frameDepth ≤ m.frames.length) :
    Thrown host e regions m (propagateThrough e regions m) := by
  induction regions generalizing m with
  | nil =>
    obtain ⟨f, m', heq, hblame, hkept⟩ : ∃ f m', (unhandled e : Exec Unit) { m with regions := [] } =
        .error (.fault f) m' ∧ (Signal.fault f).blamesCode = false ∧
          Kept host { m with regions := [] } m' := kept_unhandled e _
    unfold propagateThrough
    rw [modify_bind, heq]
    exact ⟨rfl, hblame, hkept.settings, hkept.builtins, hkept.pinned⟩
  | cons region rest ih =>
    obtain ⟨hbelow, hsorted'⟩ := List.pairwise_cons.1 hsorted
    obtain ⟨hdepth, hshallow⟩ := hdepths region List.mem_cons_self
    unfold propagateThrough
    rw [modify_bind]
    have hback := unwound_unwindTo rest hshallow
    revert hback
    generalize ({ m with regions := rest } : Machine).unwindTo region rest.length = back
    intro hback
    have hon : region.finally? = none →
        Thrown host e (region :: rest) m (propagateThrough e rest back) := by
      intro hfinally
      refine hback.thrown_on hfinally hbelow (ih hsorted' fun r hr => ?_)
      have hbounds := hdepths r (List.mem_cons_of_mem region hr)
      rw [hback.depth]
      exact ⟨hbounds.1, hbelow r hr⟩
    rcases accepts_cases region e back with ⟨taken, haccepts, htaken⟩ | hendless
    · rw [bind_of_ok haccepts]
      cases hhandler : region.handler? with
      | none =>
        have hpasses : ¬ (region.Takes back.heap e ∧ region.handler? ≠ none) :=
          fun h => h.2 hhandler
        cases hfinally : region.finally? with
        | none => cases taken <;> exact hon hfinally
        | some block =>
          cases taken <;> exact hback.thrown_held hdepth (.passing hpasses hfinally)
      | some handler =>
        cases taken with
        | true =>
          have htakes := htaken.1 rfl
          cases hfinally : region.finally? with
          | none => exact hback.thrown_caught hdepth (.caught htakes hhandler hfinally)
          | some block => exact hback.thrown_held hdepth (.held htakes hhandler hfinally)
        | false =>
          have hpasses : ¬ (region.Takes back.heap e ∧ region.handler? ≠ none) :=
            fun h => absurd (htaken.2 h.1) nofun
          cases hfinally : region.finally? with
          | none => exact hon hfinally
          | some block => exact hback.thrown_held hdepth (.passing hpasses hfinally)
    · rw [bind_of_error hendless]
      have hkept : Kept host m (back.steer m.frames m.regions m.completions) := hback.sheds.kept
      exact ⟨rfl, rfl, hkept.settings, hkept.builtins, hkept.pinned⟩

/-! Returning. -/

/-- The regions of the innermost call that a return passes over. -/
def PassedOver (depth : Nat) (gone : List Region) : Prop :=
  ∀ r ∈ gone, r.frameDepth = depth ∧ r.finally? = none

/-- The result of a return from `m`. -/
inductive Returns (m : Machine) (value : Value) :
    EStateM.Result Signal Machine (Option Value) → Prop where
  /-- A finally block begins. -/
  | held {gone older : List Region} {region : Region} {block : Nat} {q : Machine}
      (hregions : m.regions = gone ++ region :: older) (hgone : PassedOver m.frames.length gone)
      (hdepth : region.frameDepth = m.frames.length) (hfinally : region.finally? = some block)
      (hsheds : Sheds m q) :
      Returns m value (.ok none (q.steer (resumeAt m.frames m.frames.length block) older
        (pendings older m.frames.length (some (.giveBack value)) ++ m.completions)))
  /-- The caller goes on. -/
  | left {gone older : List Region} {f : Frame} {outer : List Frame} {q : Machine}
      (hregions : m.regions = gone ++ older) (hgone : PassedOver m.frames.length gone)
      (holder : ∀ r ∈ older.head?, r.frameDepth ≠ m.frames.length)
      (hframes : m.frames = f :: outer) (houter : outer ≠ []) (hsheds : Sheds m q) :
      Returns m value (.ok none (q.steer outer older
        (m.completions.dropWhile fun p => decide (outer.length < p.frameDepth))))
  /-- The last call is over. -/
  | last {gone older : List Region} {f : Frame} {v : Value}
      (hregions : m.regions = gone ++ older) (hgone : PassedOver m.frames.length gone)
      (holder : ∀ r ∈ older.head?, r.frameDepth ≠ m.frames.length) (hframes : m.frames = [f]) :
      Returns m value (.ok (some v) (((m.closeUpvalues f.base).truncate f.base).steer [] older
        (m.completions.dropWhile fun p => decide (0 < p.frameDepth))))

theorem returns_leaveFrame {f : Frame} {outer : List Frame} (hframes : m.frames = f :: outer)
    (value : Value) {gone older : List Region} (hregions : m.regions = gone ++ older)
    (hgone : PassedOver m.frames.length gone)
    (holder : ∀ r ∈ older.head?, r.frameDepth ≠ m.frames.length) :
    Returns m value (leaveFrame value (m.steer m.frames older m.completions)) := by
  have hsteered : (m.steer m.frames older m.completions).frames = f :: outer := hframes
  unfold leaveFrame
  rw [get_bind, hsteered]
  cases outer with
  | nil => exact .last hregions hgone holder hframes
  | cons g outer =>
    have hclosed : Sheds m (m.closeUpvalues f.base) := .close .refl _
    exact .left hregions hgone holder hframes nofun (hclosed.stack _)

theorem returns_returnThrough {f : Frame} {outer : List Frame} (hframes : m.frames = f :: outer)
    (value : Value) {gone regions : List Region} (hregions : m.regions = gone ++ regions)
    (hgone : PassedOver m.frames.length gone) :
    Returns m value (returnThrough value m.frames.length regions
      (m.steer m.frames regions m.completions)) := by
  induction regions generalizing gone with
  | nil => exact returns_leaveFrame hframes value hregions hgone nofun
  | cons region rest ih =>
    unfold returnThrough
    by_cases hdepth : region.frameDepth = m.frames.length
    · rw [if_pos hdepth, modify_bind]
      cases hfinally : region.finally? with
      | none =>
        have hpassed : PassedOver m.frames.length (gone ++ [region]) := by
          intro r hr
          rcases List.mem_append.1 hr with hmem | hmem
          · exact hgone r hmem
          · rw [List.mem_singleton.1 hmem]
            exact ⟨hdepth, hfinally⟩
        exact ih (by rw [hregions, List.append_assoc]; rfl) hpassed
      | some block =>
        let shed := (m.closeUpvalues region.stackDepth).truncate region.stackDepth
        let pending : Pending :=
          { tryDepth := rest.length, frameDepth := m.frames.length, completion := .giveBack value }
        let pushed := shed.steer m.frames rest (pending :: m.completions)
        have hpushed : pushed.frames = f :: outer := hframes
        have hsheds : Sheds m shed := .stack (.close .refl _) _
        have heq : ((do
            modify fun m => (m.closeUpvalues region.stackDepth).truncate region.stackDepth
            pushCompletion (.giveBack value)
            jumpTo block
            return none : Exec (Option Value)) (m.steer m.frames rest m.completions)) =
            (jumpTo block >>= fun _ => pure none) pushed := rfl
        show Returns m value ((do
            modify fun m => (m.closeUpvalues region.stackDepth).truncate region.stackDepth
            pushCompletion (.giveBack value)
            jumpTo block
            return none : Exec (Option Value)) (m.steer m.frames rest m.completions))
        rw [heq, bind_of_ok (jumpTo_eq hpushed block)]
        have hmoved : resumeAt m.frames m.frames.length block =
            m.frames.modifyHead fun f => { f with ip := block } := by
          unfold resumeAt
          rw [Nat.sub_self, List.drop_zero]
        have hheld : Returns m value _ := .held hregions hgone hdepth hfinally hsheds
        rw [hmoved] at hheld
        exact hheld
    · rw [if_neg hdepth]
      refine returns_leaveFrame hframes value hregions hgone ?_
      intro r hr
      obtain rfl : region = r := by simpa using hr
      exact hdepth

theorem returns_finishReturn {f : Frame} {outer : List Frame} (hframes : m.frames = f :: outer)
    (value : Value) : Returns m value (finishReturn value m) := by
  have hnone : m.regions = [] ++ m.regions := rfl
  exact returns_returnThrough hframes value hnone nofun

end Machine

end ScriptMachine
