import ScriptMachine.Proofs.Machine.Captures.OpenCells
import ScriptMachine.Proofs.Machine.Lineage
import ScriptMachine.Proofs.Machine.Runs

/-!
Where an exception goes. The innermost region that has a finally block, or a handler for the class of
the exception, takes it. That region and all regions inside it are left at once: the calls made since
it was entered are over, the stack is as low as the lowest of these regions saw it, the variables
that are gone with that are closed, and the finally blocks that were running inside are dropped.

A region is passed over in the same way as the region that takes the exception is gone back to, so
that the whole way is one such step, with the regions on it put together.
-/

namespace ScriptMachine

/-! Classes of exceptions. -/

namespace Heap

variable {h h' : Heap} {r s : Ref} {target : Ref} {e : Value}

/-- A class, and the classes that descend from it. -/
inductive Below (h : Heap) (target : Ref) : Ref → Prop where
  | self : Below h target target
  | child {r s : Ref} (hr : h.superclass? r = some s) (hs : Below h target s) : Below h target r

theorem Below.of_reaches {fuel : Nat} (hreaches : h.reaches target fuel r = .found ()) :
    h.Below target r := by
  induction fuel generalizing r with
  | zero => cases hreaches
  | succ fuel ih =>
    rw [reaches] at hreaches
    by_cases htarget : r = target
    · rw [htarget]
      exact .self
    · rw [if_neg htarget] at hreaches
      split at hreaches
      · cases hreaches
      · next s hs => exact .child hs (ih hreaches)

theorem below_iff : h.Below target r ↔ h.Descends r target := by
  refine ⟨fun hbelow => ?_, .of_reaches⟩
  induction hbelow with
  | self => exact descends_self h target
  | child hr _ ih => exact ih.of_parent (superclass?_eq_some.1 hr)

/-- Whether a value is an instance of a class or of a class that descends from it. -/
def IsInstance (h : Heap) (e : Value) (target : Ref) : Prop :=
  ∃ cls, h.instanceClass? e = some cls ∧ h.Below target cls

theorem isInstanceOf_eq_found :
    h.isInstanceOf e target = .found () ↔ h.IsInstance e target := by
  unfold isInstanceOf IsInstance
  cases h.instanceClass? e with
  | none => simp
  | some cls => simp [below_iff, Descends]

/-- The heaps have the same classes, and the same instances of them. -/
structure SameClasses (h h' : Heap) : Prop where
  classes : ∀ r, h'.class? r = h.class? r
  instances : ∀ v, h'.instanceClass? v = h.instanceClass? v

theorem SameClasses.reaches (hsame : SameClasses h h') (target : Ref) (fuel : Nat) (r : Ref) :
    h'.reaches target fuel r = h.reaches target fuel r := by
  induction fuel generalizing r with
  | zero => rfl
  | succ fuel ih =>
    unfold Heap.reaches
    simp only [hsame.classes, ih]

theorem SameClasses.isInstanceOf (hsame : SameClasses h h') (e : Value) (target : Ref) :
    h'.isInstanceOf e target = h.isInstanceOf e target := by
  unfold Heap.isInstanceOf
  rw [hsame.instances]
  cases h.instanceClass? e with
  | none => rfl
  | some cls =>
    dsimp only
    -- the heaps may differ in size, and a longer search ends as the shorter one does
    have hfuel := Nat.le_max_left h.chainLimit h'.chainLimit
    have hfuel' := Nat.le_max_right h.chainLimit h'.chainLimit
    rw [reaches_eq_of_le target hfuel' cls, reaches_eq_of_le target hfuel cls, hsame.reaches]

end Heap

namespace Region

variable {h h' : Heap} {r : Region} {e : Value}

/-- The handler of the region is meant for exceptions of this class. -/
def Accepts (h : Heap) (r : Region) (e : Value) : Prop :=
  ∀ cls, r.filter? = some cls → h.IsInstance e cls

/-- The region keeps the exception from going on. -/
def Halts (h : Heap) (r : Region) (e : Value) : Prop :=
  r.finally? ≠ none ∨ r.handler? ≠ none ∧ r.Accepts h e

/-- The search for the class of the exception, if the handler asks for one. -/
def asks (h : Heap) (r : Region) (e : Value) : Search Unit :=
  match r.filter? with
  | none => .found ()
  | some cls => h.isInstanceOf e cls

/-- The search comes to an end. Where superclasses run in a circle, it may not. -/
def Decides (h : Heap) (r : Region) (e : Value) : Prop := r.asks h e ≠ .endless

theorem asks_eq_found : r.asks h e = .found () ↔ r.Accepts h e := by
  unfold asks Accepts
  cases r.filter? with
  | none => simp
  | some cls => simp [Heap.isInstanceOf_eq_found]

theorem circular_of_not_decides (hendless : ¬ r.Decides h e) : h.Circular := by
  unfold Decides asks at hendless
  split at hendless
  · exact absurd nofun hendless
  · exact Heap.circular_of_isInstanceOf (not_not.1 hendless)

theorem asks_congr (hsame : h.SameClasses h') : r.asks h' e = r.asks h e := by
  unfold asks
  simp only [hsame.isInstanceOf]

theorem accepts_congr (hsame : h.SameClasses h') : r.Accepts h' e ↔ r.Accepts h e := by
  rw [← asks_eq_found, ← asks_eq_found, asks_congr hsame]

theorem halts_congr (hsame : h.SameClasses h') : r.Halts h' e ↔ r.Halts h e := by
  unfold Halts
  rw [accepts_congr hsame]

theorem decides_congr (hsame : h.SameClasses h') : r.Decides h' e ↔ r.Decides h e := by
  unfold Decides
  rw [asks_congr hsame]

end Region

/-! Variables that are gone. -/

namespace Heap

variable {h h' h'' : Heap} {refs refs' refs'' : List Ref} {stack stack' : Array Value}
  {gone gone' : Nat → Prop}

/-- The open cells of a list whose slots are gone are closed with the values of their slots. The
others stay open, and everything else stays. -/
structure Frees (stack : Array Value) (gone : Nat → Prop) (refs : List Ref) (h : Heap)
    (refs' : List Ref) (h' : Heap) : Prop where
  lined : h'.Lined refs'
  opened : ∀ r, r ∈ refs' ↔ r ∈ refs ∧ ∃ k, h.openSlot? r = some k ∧ ¬ gone k
  closed : ∀ r ∈ refs, ∀ k, h.openSlot? r = some k → gone k →
    h'.get? r = some (.upvalue (.closed (stack.getD k .nil)))
  other : ∀ r, (r ∈ refs → ∀ k, h.openSlot? r = some k → ¬ gone k) → h'.get? r = h.get? r
  pool : h'.pool = h.pool

theorem pool_closeCells (stack : Array Value) (start : Nat) (refs : List Ref) (h : Heap) :
    (closeCells stack start refs h).2.pool = h.pool := by
  induction refs generalizing h with
  | nil => rfl
  | cons r rest ih =>
    unfold closeCells
    split
    · split
      · rfl
      · exact (ih _).trans (pool_update r _)
    · exact ih _

theorem frees_closeCells (hlined : h.Lined refs) (start : Nat) :
    Frees stack (start ≤ ·) refs h (closeCells stack start refs h).1
      (closeCells stack start refs h).2 := by
  have hclosed : Closed stack start refs h _ _ := closed_closeCells hlined
  refine ⟨hclosed.lined, fun r => ?_, hclosed.closed, fun r hr => hclosed.other r fun hmem k hk => ?_,
    pool_closeCells stack start refs h⟩
  · rw [hclosed.mem]
    simp only [Nat.not_le, and_comm]
  · exact Nat.lt_of_not_le (hr hmem k hk)

namespace Frees

theorem refl (hlined : h.Lined refs) : Frees stack (fun _ => False) refs h refs h :=
  ⟨hlined, fun _ => ⟨fun hr => ⟨hr, (hlined.exists_slot hr).imp fun _ hk => ⟨hk, id⟩⟩, And.left⟩,
    fun _ _ _ _ => False.elim, fun _ _ => rfl, rfl⟩

theorem congr (hfrees : Frees stack gone refs h refs' h') (hiff : ∀ k, gone k ↔ gone' k) :
    Frees stack gone' refs h refs' h' := by
  obtain rfl : gone = gone' := funext fun k => propext (hiff k)
  exact hfrees

theorem openSlot?_eq (hfrees : Frees stack gone refs h refs' h') {r : Ref} (hr : r ∈ refs') :
    h'.openSlot? r = h.openSlot? r := by
  obtain ⟨-, k, hk, hkept⟩ := (hfrees.opened r).1 hr
  have hget := hfrees.other r fun _ j hj => Option.some.inj (hk.symm.trans hj) ▸ hkept
  unfold openSlot?
  rw [hget]

/-- What is freed in two steps is freed at once, if the values that are left for the second step are
those of before. -/
theorem trans (hfirst : Frees stack gone refs h refs' h')
    (hsecond : Frees stack' gone' refs' h' refs'' h'')
    (hvalues : ∀ k, ¬ gone k → stack'.getD k .nil = stack.getD k .nil) :
    Frees stack (fun k => gone k ∨ gone' k) refs h refs'' h'' := by
  refine ⟨hsecond.lined, fun r => ?_, fun r hr k hk hgone => ?_, fun r hr => ?_,
    hsecond.pool.trans hfirst.pool⟩
  · rw [hsecond.opened]
    constructor
    · rintro ⟨hr, k, hk, hkept⟩
      rw [hfirst.openSlot?_eq hr] at hk
      obtain ⟨hmem, j, hj, hfirstKept⟩ := (hfirst.opened r).1 hr
      rw [Option.some.inj (hj.symm.trans hk)] at hfirstKept
      exact ⟨hmem, k, hk, fun h => h.elim hfirstKept hkept⟩
    · rintro ⟨hmem, k, hk, hkept⟩
      obtain ⟨hfirstKept, hsecondKept⟩ := not_or.1 hkept
      have hr : r ∈ refs' := (hfirst.opened r).2 ⟨hmem, k, hk, hfirstKept⟩
      exact ⟨hr, k, (hfirst.openSlot?_eq hr).trans hk, hsecondKept⟩
  · by_cases hbefore : gone k
    · -- the cell is closed by the first step, and the second leaves it
      have hget := hfirst.closed r hr k hk hbefore
      have hnot : r ∉ refs' := fun hmem => by
        obtain ⟨-, j, hj, hkept⟩ := (hfirst.opened r).1 hmem
        exact hkept (Option.some.inj (hk.symm.trans hj) ▸ hbefore)
      rw [hsecond.other r fun hmem => absurd hmem hnot, hget]
    · have hmem : r ∈ refs' := (hfirst.opened r).2 ⟨hr, k, hk, hbefore⟩
      rw [hsecond.closed r hmem k ((hfirst.openSlot?_eq hmem).trans hk) (hgone.resolve_left hbefore),
        hvalues k hbefore]
  · rw [hsecond.other r ?_, hfirst.other r fun hmem k hk => fun hgone => hr hmem k hk (Or.inl hgone)]
    intro hmem k hk hgone
    rw [hfirst.openSlot?_eq hmem] at hk
    exact hr ((hfirst.opened r).1 hmem).1 k hk (Or.inr hgone)

/-- Cells are neither classes nor instances. -/
theorem sameClasses (hfrees : Frees stack gone refs h refs' h') : h.SameClasses h' := by
  have hget (r : Ref) : h'.get? r = h.get? r ∨
      ∃ k v, h.get? r = some (.upvalue (.opened k)) ∧ h'.get? r = some (.upvalue (.closed v)) := by
    by_cases hcell : r ∈ refs ∧ ∃ k, h.openSlot? r = some k ∧ gone k
    · obtain ⟨hr, k, hk, hgone⟩ := hcell
      exact Or.inr ⟨k, _, openSlot?_eq_some.1 hk, hfrees.closed r hr k hk hgone⟩
    · exact Or.inl (hfrees.other r fun hr k hk hgone => hcell ⟨hr, k, hk, hgone⟩)
  refine ⟨fun r => ?_, fun v => ?_⟩
  · unfold class?
    rcases hget r with hsame | ⟨k, v, hbefore, hafter⟩
    · rw [hsame]
    · rw [hbefore, hafter]
  · unfold instanceClass? object?
    cases v with
    | ref r =>
      dsimp only
      rcases hget r with hsame | ⟨k, v, hbefore, hafter⟩
      · rw [hsame]
      · rw [hbefore, hafter]
    | _ => rfl

end Frees

end Heap

namespace Machine

variable {m m' q back : Machine} {R region : Region} {passed older : List Region} {e : Value}
  {depth depth' left left' : Nat}

/-! Going back. -/

/-- The slots that are gone with some calls and some regions. -/
def GoneWith (calls : List Frame) (regions : List Region) (slot : Nat) : Prop :=
  (∃ f ∈ calls, f.base ≤ slot) ∨ ∃ r ∈ regions, r.stackDepth ≤ slot

/-- The lowest stack that some regions saw, if it is lower than a given one. -/
def lowest (regions : List Region) (size : Nat) : Nat :=
  (regions.map Region.stackDepth).foldl min size

theorem lowest_le (regions : List Region) (size : Nat) : lowest regions size ≤ size := by
  induction regions generalizing size with
  | nil => exact le_refl _
  | cons r rest ih => exact (ih _).trans (Nat.min_le_left _ _)

theorem le_of_lowest_le {regions : List Region} {size k : Nat} (hle : lowest regions size ≤ k) :
    size ≤ k ∨ ∃ r ∈ regions, r.stackDepth ≤ k := by
  induction regions generalizing size with
  | nil => exact Or.inl hle
  | cons r rest ih =>
    rcases ih hle with hmin | ⟨s, hs, hsk⟩
    · rcases Nat.le_total size r.stackDepth with hless | hless
      · exact Or.inl (Nat.min_eq_left hless ▸ hmin)
      · exact Or.inr ⟨r, List.mem_cons_self, Nat.min_eq_right hless ▸ hmin⟩
    · exact Or.inr ⟨s, List.mem_cons_of_mem r hs, hsk⟩

theorem lowest_append (regions regions' : List Region) (size : Nat) :
    lowest (regions ++ regions') size = lowest regions' (lowest regions size) := by
  unfold lowest
  rw [List.map_append, List.foldl_append]

/-- The machine has gone back through some regions to where there were `depth` calls and `left`
regions. -/
structure Unwinds (m : Machine) (regions : List Region) (depth left : Nat) (back : Machine) :
    Prop where
  frames : back.frames = m.frames.drop (m.frames.length - depth)
  completions : back.completions = m.completions.dropWhile fun p => decide (left < p.tryDepth)
  stack : back.stack = m.stack.shrink (lowest regions m.stack.size)
  cells : Heap.Frees m.stack (GoneWith (m.frames.take (m.frames.length - depth)) regions)
    m.openUpvalues m.heap back.openUpvalues back.heap
  others : back = { m with
    heap := back.heap, stack := back.stack, frames := back.frames,
    openUpvalues := back.openUpvalues, regions := back.regions, completions := back.completions }

theorem frees_closeUpvalues (hlined : m.heap.Lined m.openUpvalues) (start : Nat) :
    Heap.Frees m.stack (start ≤ ·) m.openUpvalues m.heap (m.closeUpvalues start).openUpvalues
      (m.closeUpvalues start).heap := Heap.frees_closeCells hlined start

/-- The variables of calls are closed one call after the other. -/
theorem frees_closeAll (hlined : m.heap.Lined m.openUpvalues) (calls : List Frame) :
    ∃ cells heap, calls.foldl (fun m f => m.closeUpvalues f.base) m =
      { m with openUpvalues := cells, heap } ∧
        Heap.Frees m.stack (fun k => ∃ f ∈ calls, f.base ≤ k) m.openUpvalues m.heap cells heap := by
  induction calls generalizing m with
  | nil => exact ⟨_, _, rfl, (Heap.Frees.refl hlined).congr (by simp)⟩
  | cons f rest ih =>
    have hfirst := frees_closeUpvalues hlined f.base
    obtain ⟨cells, heap, heq, hrest⟩ := ih hfirst.lined
    refine ⟨cells, heap, heq, (hfirst.trans hrest fun _ _ => rfl).congr fun k => ?_⟩
    simp

theorem unwinds_unwindTo (hlined : m.heap.Lined m.openUpvalues) (region : Region) (left : Nat) :
    Unwinds m [region] region.frameDepth left (m.unwindTo region left) := by
  let completions := m.completions.dropWhile fun p => decide (left < p.tryDepth)
  let kept : Machine := { m with completions }
  let calls := m.frames.take (m.frames.length - region.frameDepth)
  obtain ⟨cells, heap, heq, hcalls⟩ := frees_closeAll (m := kept) hlined calls
  let popped : Machine := { kept with
    openUpvalues := cells, heap, frames := m.frames.drop (m.frames.length - region.frameDepth) }
  have hpop : kept.popFrames region.frameDepth = popped := by
    unfold popFrames
    dsimp only
    rw [show calls.foldl (fun m f => m.closeUpvalues f.base) kept = _ from heq]
  have hunwound : m.unwindTo region left =
      (popped.closeUpvalues region.stackDepth).truncate region.stackDepth := by
    rw [← hpop]
    rfl
  have hslot := frees_closeUpvalues (m := popped) hcalls.lined region.stackDepth
  rw [hunwound]
  refine ⟨rfl, rfl, ?_, ?_, rfl⟩
  · show m.stack.shrink region.stackDepth = m.stack.shrink (min m.stack.size region.stackDepth)
    apply Array.ext_getElem?
    intro i
    rw [ArraySlots.getElem?_shrink, ArraySlots.getElem?_shrink]
    by_cases hi : i < m.stack.size
    · simp [hi]
    · rw [Array.getElem?_eq_none (by omega), ite_self, ite_self]
  · exact (hcalls.trans hslot fun _ _ => rfl).congr fun k => by simp [GoneWith, calls]

/-- Going back twice. -/
theorem Unwinds.trans {regions regions' : List Region} (hfirst : Unwinds m regions depth left q)
    (hsecond : Unwinds q regions' depth' left' back) (hdepth : depth ≤ m.frames.length)
    (hless : depth' ≤ depth) (hfew : left' ≤ left) :
    Unwinds m (regions ++ regions') depth' left' back := by
  have hlength : q.frames.length = depth := by
    rw [hfirst.frames, List.length_drop]
    omega
  have hsize : q.stack.size = lowest regions m.stack.size := by
    rw [hfirst.stack, Array.size_shrink]
    exact Nat.min_eq_left (lowest_le _ _)
  have hcalls : m.frames.take (m.frames.length - depth') =
      m.frames.take (m.frames.length - depth) ++ q.frames.take (q.frames.length - depth') := by
    rw [hfirst.frames, ← List.take_add, List.length_drop]
    congr 1
    omega
  refine ⟨?_, ?_, ?_, ?_, ?_⟩
  · rw [hsecond.frames, hlength, hfirst.frames, List.drop_drop]
    congr 1
    omega
  · rw [hsecond.completions, hfirst.completions, dropWhile_dropWhile _ hfew]
  · rw [hsecond.stack, hsize, hfirst.stack, lowest_append]
    apply Array.ext_getElem?
    intro i
    have hle := lowest_le regions' (lowest regions m.stack.size)
    simp only [ArraySlots.getElem?_shrink]
    by_cases hi : i < lowest regions' (lowest regions m.stack.size)
    · rw [if_pos hi, if_pos hi, if_pos (by omega)]
    · rw [if_neg hi, if_neg hi]
  · refine (hfirst.cells.trans hsecond.cells fun k hkept => ?_).congr fun k => ?_
    · -- what is left for the second step stands below all that the first one dropped
      rw [hfirst.stack, Array.getD_eq_getD_getElem?, Array.getD_eq_getD_getElem?,
        ArraySlots.getElem?_shrink]
      by_cases hk : k < lowest regions m.stack.size
      · rw [if_pos hk]
      · rcases le_of_lowest_le (Nat.le_of_not_lt hk) with hbeyond | hgone
        · rw [if_neg hk, Array.getElem?_eq_none hbeyond]
        · exact absurd (Or.inr hgone) hkept
    · unfold GoneWith
      rw [hcalls]
      simp only [List.mem_append, or_and_right, exists_or]
      exact or_or_or_comm
  · rw [hsecond.others, hfirst.others]

/-! Where the exception is taken. -/

theorem accepts_eq (region : Region) (e : Value) (m : Machine) :
    accepts region e m =
      match region.asks m.heap e with
      | .found () => .ok true m
      | .absent => .ok false m
      | .endless => .error .endless m := by
  unfold accepts Region.asks
  cases region.filter? with
  | none => rfl
  | some cls =>
    dsimp only
    rw [get_bind]
    cases m.heap.isInstanceOf e cls <;> rfl

/-- The machine goes on where the exception is taken: in the handler, or in the finally block, after
which comes the handler or the search for the next one. -/
structure Takes (h : Heap) (region : Region) (e : Value) (back m' : Machine) : Prop where
  caught : region.finally? = none → ∃ handler, region.handler? = some handler ∧
    m' = { back.atOffset handler with stack := back.stack.push e }
  held : ∀ block, region.finally? = some block → ∃ c,
    m' = { back.atOffset block with completions :=
      { tryDepth := back.regions.length, frameDepth := back.frames.length, completion := c } ::
        back.completions } ∧
    (∀ handler, region.handler? = some handler → region.Accepts h e → c = .handle handler e) ∧
    (region.handler? = none ∨ ¬ region.Accepts h e → c = .rethrow e)

theorem handler_eq (hframes : back.frames ≠ []) (e : Value) (handler : Nat) :
    (do push e; jumpTo handler : Exec Unit) back =
      .ok () { back.atOffset handler with stack := back.stack.push e } := by
  obtain ⟨f, outer, hcons⟩ := List.exists_cons_of_ne_nil hframes
  let pushed : Machine := { back with stack := back.stack.push e }
  have hpush : push e back = .ok () pushed := rfl
  rw [bind_of_ok hpush, jumpTo_eq (show pushed.frames = f :: outer from hcons)]
  rfl

theorem block_eq (hframes : back.frames ≠ []) (c : Completion) (block : Nat) :
    (do pushCompletion c; jumpTo block : Exec Unit) back =
      .ok () { back.atOffset block with completions :=
        { tryDepth := back.regions.length, frameDepth := back.frames.length, completion := c } ::
          back.completions } := by
  obtain ⟨f, outer, hcons⟩ := List.exists_cons_of_ne_nil hframes
  let pending : Pending :=
    { tryDepth := back.regions.length, frameDepth := back.frames.length, completion := c }
  let pushed : Machine := { back with completions := pending :: back.completions }
  have hpush : pushCompletion c back = .ok () pushed := rfl
  rw [bind_of_ok hpush, jumpTo_eq (show pushed.frames = f :: outer from hcons)]
  rfl

section Regions

variable {h : Heap} {rest : List Region}

/-- The machine after one region was left. -/
def leave (m : Machine) (region : Region) (rest : List Region) : Machine :=
  ({ m with regions := rest } : Machine).unwindTo region rest.length

theorem regions_leave (m : Machine) (region : Region) (rest : List Region) :
    (m.leave region rest).regions = rest := by
  obtain ⟨q, -, heq⟩ := unwindTo_eq ({ m with regions := rest } : Machine) region rest.length
  unfold leave
  rw [heq]
  rfl

theorem unwinds_leave (hlined : m.heap.Lined m.openUpvalues) (region : Region)
    (rest : List Region) :
    Unwinds m [region] region.frameDepth rest.length (m.leave region rest) := by
  have hunwinds := unwinds_unwindTo (m := { m with regions := rest }) hlined region rest.length
  exact ⟨hunwinds.frames, hunwinds.completions, hunwinds.stack, hunwinds.cells, hunwinds.others⟩

theorem propagateThrough_endless (hsame : h.SameClasses (m.leave region rest).heap)
    (hendless : ¬ region.Decides h e) :
    propagateThrough e (region :: rest) m = .error .endless (m.leave region rest) := by
  have haccepts := accepts_eq region e (m.leave region rest)
  rw [Region.asks_congr hsame, not_not.1 hendless] at haccepts
  unfold propagateThrough
  rw [modify_bind]
  exact bind_of_error haccepts _

theorem propagateThrough_passes (hsame : h.SameClasses (m.leave region rest).heap)
    (hdecides : region.Decides h e) (hpasses : ¬ region.Halts h e) :
    propagateThrough e (region :: rest) m = propagateThrough e rest (m.leave region rest) := by
  obtain ⟨hfinally, hhandler⟩ := not_or.1 hpasses
  have hnone : region.finally? = none := not_not.1 hfinally
  have haccepts := accepts_eq region e (m.leave region rest)
  rw [Region.asks_congr hsame] at haccepts
  conv_lhs => unfold propagateThrough
  rw [modify_bind]
  cases hasks : region.asks h e with
  | endless => exact absurd hasks hdecides
  | found a =>
    rw [hasks] at haccepts
    have hno : region.handler? = none := by
      by_contra hsome
      exact hhandler ⟨hsome, Region.asks_eq_found.1 hasks⟩
    refine (bind_of_ok haccepts _).trans ?_
    rw [hnone, hno]
  | absent =>
    rw [hasks] at haccepts
    refine (bind_of_ok haccepts _).trans ?_
    rw [hnone]

theorem propagateThrough_takes (hsame : h.SameClasses (m.leave region rest).heap)
    (hframes : (m.leave region rest).frames ≠ []) (hdecides : region.Decides h e)
    (hhalts : region.Halts h e) :
    ∃ m', propagateThrough e (region :: rest) m = .ok () m' ∧
      Takes h region e (m.leave region rest) m' := by
  let back := m.leave region rest
  have haccepts := accepts_eq region e back
  rw [Region.asks_congr hsame] at haccepts
  have hblock (c : Completion) {block : Nat} (hfinally : region.finally? = some block)
      (hcaught : ∀ handler, region.handler? = some handler → region.Accepts h e →
        c = .handle handler e)
      (hpassed : region.handler? = none ∨ ¬ region.Accepts h e → c = .rethrow e) :
      ∃ m', (do pushCompletion c; jumpTo block : Exec Unit) back = .ok () m' ∧
        Takes h region e back m' := by
    refine ⟨_, block_eq hframes c block, fun hnone => ?_, fun other hother => ?_⟩
    · rw [hnone] at hfinally
      cases hfinally
    · obtain rfl := Option.some.inj (hfinally.symm.trans hother)
      exact ⟨c, rfl, hcaught, hpassed⟩
  unfold propagateThrough
  rw [modify_bind]
  show ∃ m', (accepts region e >>= _) back = .ok () m' ∧ _
  cases hasks : region.asks h e with
  | endless => exact absurd hasks hdecides
  | absent =>
    rw [hasks] at haccepts
    have hnot : ¬ region.Accepts h e := by
      rw [← Region.asks_eq_found, hasks]
      simp
    obtain ⟨block, hfinally⟩ := Option.ne_none_iff_exists'.1 (hhalts.resolve_right fun h => hnot h.2)
    rw [bind_of_ok haccepts, hfinally]
    exact hblock (.rethrow e) hfinally (fun _ _ h => absurd h hnot) fun _ => rfl
  | found a =>
    rw [hasks] at haccepts
    have htaken : region.Accepts h e := Region.asks_eq_found.1 hasks
    rw [bind_of_ok haccepts]
    cases hhandler : region.handler? with
    | none =>
      have hsome := hhalts.resolve_right fun h => h.1 hhandler
      obtain ⟨block, hfinally⟩ := Option.ne_none_iff_exists'.1 hsome
      rw [hfinally]
      refine hblock (.rethrow e) hfinally (fun handler hh => ?_) fun _ => rfl
      rw [hhandler] at hh
      cases hh
    | some handler =>
      cases hfinally : region.finally? with
      | none =>
        refine ⟨_, handler_eq hframes e handler, fun _ => ⟨handler, hhandler, rfl⟩, fun block hb => ?_⟩
        rw [hfinally] at hb
        cases hb
      | some block =>
        refine hblock (.handle handler e) hfinally (fun other hother _ => ?_) fun h => ?_
        · rw [Option.some.inj (hhandler.symm.trans hother)]
        · rcases h with hnone | hnot
          · rw [hhandler] at hnone
            cases hnone
          · exact absurd htaken hnot

/-- The search passes over regions and comes to the next one, as if it had gone back there at
once. -/
theorem propagateThrough_append (hlined : m.heap.Lined m.openUpvalues)
    (hsorted : (passed ++ R :: rest).Pairwise fun r s => s.frameDepth ≤ r.frameDepth)
    (hdepths : ∀ r ∈ passed ++ R :: rest, r.frameDepth ≤ m.frames.length)
    (hpassed : ∀ r ∈ passed, r.Decides m.heap e ∧ ¬ r.Halts m.heap e) :
    ∃ q, propagateThrough e (passed ++ R :: rest) m = propagateThrough e (R :: rest) q ∧
      Unwinds m (passed ++ [R]) R.frameDepth rest.length (q.leave R rest) := by
  induction passed generalizing m with
  | nil => exact ⟨m, rfl, unwinds_leave hlined R rest⟩
  | cons region passed ih =>
    let back := m.leave region (passed ++ R :: rest)
    have hunwinds : Unwinds m [region] region.frameDepth (passed ++ R :: rest).length back :=
      unwinds_leave hlined region _
    have hsame : m.heap.SameClasses back.heap := hunwinds.cells.sameClasses
    obtain ⟨hbelow, hsorted'⟩ := List.pairwise_cons.1 hsorted
    have hdepth : region.frameDepth ≤ m.frames.length := hdepths region List.mem_cons_self
    have hlength : back.frames.length = region.frameDepth := by
      rw [hunwinds.frames, List.length_drop]
      omega
    obtain ⟨hdecides, hpasses⟩ := hpassed region List.mem_cons_self
    have hstep : propagateThrough e (region :: (passed ++ R :: rest)) m =
        propagateThrough e (passed ++ R :: rest) back :=
      propagateThrough_passes hsame hdecides hpasses
    obtain ⟨q, heq, hrest⟩ := ih (m := back) hunwinds.cells.lined hsorted'
      (fun r hr => hlength ▸ hbelow r hr) fun r hr => by
        rw [Region.decides_congr hsame, Region.halts_congr hsame]
        exact hpassed r (List.mem_cons_of_mem region hr)
    refine ⟨q, hstep.trans heq, hunwinds.trans hrest hdepth ?_ ?_⟩
    · exact hbelow R (List.mem_append_right passed List.mem_cons_self)
    · rw [List.length_append, List.length_cons]
      omega

/-- When no region takes it, the exception ends the run. -/
theorem propagateThrough_unhandled {regions : List Region} (hlined : m.heap.Lined m.openUpvalues)
    (hpassed : ∀ r ∈ regions, r.Decides m.heap e ∧ ¬ r.Halts m.heap e) :
    ∃ cls message lines q, propagateThrough e regions m =
      .error (.fault (.unhandled cls message lines)) q ∧ q.stack = #[] ∧ q.frames = [] ∧
        q.regions = [] ∧ q.completions = [] := by
  induction regions generalizing m with
  | nil => exact ⟨_, _, _, _, rfl, rfl, rfl, rfl, rfl⟩
  | cons region rest ih =>
    have hunwinds := unwinds_leave hlined region rest
    have hsame : m.heap.SameClasses (m.leave region rest).heap := hunwinds.cells.sameClasses
    obtain ⟨hdecides, hpasses⟩ := hpassed region List.mem_cons_self
    rw [propagateThrough_passes hsame hdecides hpasses]
    refine ih hunwinds.cells.lined fun r hr => ?_
    rw [Region.decides_congr hsame, Region.halts_congr hsame]
    exact hpassed r (List.mem_cons_of_mem region hr)

end Regions

/-- An exception is taken by the innermost region with a finally block or a handler for its class.
The machine goes back to where that region was entered, and goes on with its handler or its finally
block. Only where superclasses run in a circle can the search go on for ever, and if there is no such
region the run ends. -/
theorem propagate_restores_region (hnested : m.Nested) (hlined : m.heap.Lined m.openUpvalues)
    (e : Value) :
    (∀ passed region older, m.regions = passed ++ region :: older →
      (∀ r ∈ passed, r.Decides m.heap e ∧ ¬ r.Halts m.heap e) →
      (region.Decides m.heap e → region.Halts m.heap e → ∃ back m', propagate e m = .ok () m' ∧
        Unwinds m (passed ++ [region]) region.frameDepth older.length back ∧
          back.regions = older ∧ Takes m.heap region e back m') ∧
      (¬ region.Decides m.heap e →
        m.heap.Circular ∧ ∃ q, propagate e m = .error .endless q)) ∧
    ((∀ r ∈ m.regions, r.Decides m.heap e ∧ ¬ r.Halts m.heap e) →
      ∃ cls message lines q, propagate e m = .error (.fault (.unhandled cls message lines)) q ∧
        q.stack = #[] ∧ q.frames = [] ∧ q.regions = [] ∧ q.completions = []) := by
  have hpropagate : propagate e m = propagateThrough e m.regions m := rfl
  rw [hpropagate]
  refine ⟨fun passed region older hregions hpassed => ?_, propagateThrough_unhandled hlined⟩
  have hmem : region ∈ m.regions := hregions ▸ List.mem_append_right passed List.mem_cons_self
  obtain ⟨q, heq, hunwinds⟩ := propagateThrough_append hlined (hregions ▸ hnested.sorted)
    (fun r hr => (hnested.depths r (hregions ▸ hr)).2) hpassed
  have hsame : m.heap.SameClasses (q.leave region older).heap := hunwinds.cells.sameClasses
  rw [hregions, heq]
  refine ⟨fun hdecides hhalts => ?_, fun hendless => ?_⟩
  · obtain ⟨hpos, hle⟩ := hnested.depths region hmem
    have hframes : (q.leave region older).frames ≠ [] := by
      rw [hunwinds.frames, Ne, List.drop_eq_nil_iff]
      omega
    obtain ⟨m', hok, htakes⟩ := propagateThrough_takes hsame hframes hdecides hhalts
    exact ⟨_, m', hok, hunwinds, regions_leave q region older, htakes⟩
  · exact ⟨Region.circular_of_not_decides hendless, _, propagateThrough_endless hsame hendless⟩

/-- A machine with two calls. The inner one has entered a region without a handler, and its variable
in slot two is captured. -/
def twoRegions : Machine :=
  let cell := bare.heap.alloc (.upvalue (.opened 2))
  let inner : Region :=
    { handler? := none, finally? := none, filter? := none, stackDepth := 2, frameDepth := 2 }
  { bare with
    heap := cell.2
    stack := #[.nil, .nil, .bool true]
    frames := [{ closure := cell.1, proto := .script {}, base := 1 },
      { closure := cell.1, proto := .script {}, base := 0 }]
    openUpvalues := [cell.1]
    regions := [inner, { inner with handler? := some 7, stackDepth := 1, frameDepth := 1 }] }

/-- The exception goes to the handler of the outer call, and the captured variable is closed. -/
theorem propagate_restores_region_twoRegions :
    ∃ m', propagate (.number 1) twoRegions = .ok () m' ∧ m'.stack = #[.nil, .number 1] ∧
      m'.frames.map Frame.ip = [7] ∧ m'.regions = [] ∧
        m'.heap.get? (.object 0) = some (.upvalue (.closed (.bool true))) := by
  have hnested : twoRegions.Nested := ⟨by decide +kernel, by decide +kernel⟩
  have hlined : twoRegions.heap.Lined twoRegions.openUpvalues :=
    .cons (show _ = some 2 by decide +kernel) nofun .nil
  have hpassed : ∀ r ∈ twoRegions.regions.take 1,
      r.Decides twoRegions.heap (.number 1) ∧ ¬ r.Halts twoRegions.heap (.number 1) := by
    intro r hr
    obtain rfl := List.mem_singleton.1 hr
    refine ⟨nofun, ?_⟩
    rintro (hblock | ⟨hhandler, -⟩)
    · exact hblock rfl
    · exact hhandler rfl
  obtain ⟨back, m', hok, hunwinds, hregions, htakes⟩ :=
    ((propagate_restores_region hnested hlined (.number 1)).1 _ _ [] rfl hpassed).1 nofun
      (Or.inr ⟨nofun, nofun⟩)
  obtain ⟨handler, hhandler, rfl⟩ := htakes.caught rfl
  obtain rfl : 7 = handler := Option.some.inj hhandler
  refine ⟨_, hok, ?_, ?_, hregions, ?_⟩
  · show back.stack.push _ = _
    rw [hunwinds.stack]
    rfl
  · show (back.frames.modifyHead _).map Frame.ip = _
    rw [hunwinds.frames]
    rfl
  · exact hunwinds.cells.closed (.object 0) (by decide +kernel) 2 (by decide +kernel)
      (Or.inr ⟨_, List.mem_cons_self, le_refl 2⟩)

end Machine

end ScriptMachine
