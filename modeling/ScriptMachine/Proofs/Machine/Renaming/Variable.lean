import ScriptMachine.Proofs.Machine.Cover.Variable
import ScriptMachine.Proofs.Machine.Renaming.State

/-!
Captured variables of machines that are the same but for a renaming. The open cells have the same
slots in the same order, so the same are closed, with values that are alike, and a capture finds
paired cells or makes a cell in both machines.
-/

namespace ScriptMachine

open Machine

section Lists

variable {α β : Type} {R : α → β → Prop} {p : α → Bool} {q : β → Bool} {as : List α} {bs : List β}

theorem forall₂_takeWhile (h : List.Forall₂ R as bs) (hpq : ∀ a b, R a b → p a = q b) :
    List.Forall₂ R (as.takeWhile p) (bs.takeWhile q) := by
  induction h with
  | nil => exact .nil
  | @cons a b as bs hab _ ih =>
    rw [List.takeWhile_cons, List.takeWhile_cons, hpq a b hab]
    split
    · exact .cons hab ih
    · exact .nil

theorem forall₂_dropWhile (h : List.Forall₂ R as bs) (hpq : ∀ a b, R a b → p a = q b) :
    List.Forall₂ R (as.dropWhile p) (bs.dropWhile q) := by
  induction h with
  | nil => exact .nil
  | @cons a b as bs hab hrest ih =>
    rw [List.dropWhile_cons, List.dropWhile_cons, hpq a b hab]
    split
    · exact ih
    · exact .cons hab hrest

end Lists

namespace Renaming

variable {ρ : Renaming} {m n : Machine} {h k : Heap} {r s : Ref} {v w : Value}

/-! Cells. -/

theorem Holds.openSlot? (hh : ρ.Holds h k) (hrs : ρ.pairs r s) :
    h.openSlot? r = k.openSlot? s := by
  rcases hh.get?_cases hrs with ⟨i, j, rfl, rfl⟩ | ⟨i, j, o, o', rfl, rfl, ho, ho', hoo⟩
  · rfl
  · simp only [Heap.openSlot?, ho, ho']
    cases hoo <;> rfl

theorem Holds.closeCells {stack stack' : Array Value} {cells cells' : List Ref} (hh : ρ.Holds h k)
    (hstack : ρ.Alike stack stack') (hcells : ρ.Alike cells cells') (start : Nat) :
    ρ.Alike (closeCells stack start cells h).1 (closeCells stack' start cells' k).1 ∧
      ρ.Holds (closeCells stack start cells h).2 (closeCells stack' start cells' k).2 := by
  induction hcells generalizing h k with
  | nil => exact ⟨.nil, hh⟩
  | @cons r s rest rest' hrs hrest ih =>
    unfold ScriptMachine.closeCells
    rw [hh.openSlot? hrs]
    cases hslot : k.openSlot? s with
    | none => exact ih hh
    | some slot =>
      dsimp only
      split
      · exact ⟨.cons hrs hrest, hh⟩
      · have hslot' : h.openSlot? r = some slot := (hh.openSlot? hrs).trans hslot
        refine ih (hh.update hrs ?_ ?_ ?_)
        · exact fun o o' _ _ _ => .closed (alike_getD hstack slot .nil)
        · exact fun o ho => Or.inr ⟨World.isCode_of_openSlot? hslot' ho, rfl⟩
        · exact fun o ho => Or.inr ⟨World.isCode_of_openSlot? hslot ho, rfl⟩

theorem Mirrors.closeUpvalues (hm : ρ.Mirrors m n) (start : Nat) :
    ρ.Mirrors (m.closeUpvalues start) (n.closeUpvalues start) := by
  obtain ⟨hcells, hheap⟩ := hm.heap.closeCells hm.state.stack hm.state.openUpvalues start
  exact ⟨hheap, { hm.state with openUpvalues := hcells }⟩

theorem Mirrors.captureSlot (hm : ρ.Mirrors m n) (slot : Nat) :
    ρ.Makes (m.captureSlot slot) (n.captureSlot slot) := by
  have hsame (r s : Ref) (hrs : ρ.Alike r s) :
      isAbove m.heap slot r = isAbove n.heap slot s := by
    rw [isAbove, isAbove, hm.heap.openSlot? hrs]
  have habove := forall₂_takeWhile hm.state.openUpvalues hsame
  have hrest := forall₂_dropWhile hm.state.openUpvalues hsame
  have hmade : ρ.Makes
      ((m.heap.alloc (.upvalue (.opened slot))).1,
        ({ m with
          heap := (m.heap.alloc (.upvalue (.opened slot))).2
          openUpvalues := m.openUpvalues.takeWhile (isAbove m.heap slot) ++
            (m.heap.alloc (.upvalue (.opened slot))).1 ::
              m.openUpvalues.dropWhile (isAbove m.heap slot) } : Machine))
      ((n.heap.alloc (.upvalue (.opened slot))).1,
        { n with
          heap := (n.heap.alloc (.upvalue (.opened slot))).2
          openUpvalues := n.openUpvalues.takeWhile (isAbove n.heap slot) ++
            (n.heap.alloc (.upvalue (.opened slot))).1 ::
              n.openUpvalues.dropWhile (isAbove n.heap slot) }) := by
    have hcode {h : Heap} (c : Closure) (hc : Object.upvalue (.opened slot) = .closure c) :
        h.get? c.function = some (.function c.proto) := by cases hc
    obtain ⟨σ, hle, hheap, hnew⟩ :=
      hm.heap.alloc (o := .upvalue (.opened slot)) (.opened slot) hcode hcode
    have hmono {rs ss : List Ref} (h : ρ.Alike rs ss) : σ.Alike rs ss := h.mono hle
    have hcells := List.rel_append (hmono habove) (.cons hnew (hmono hrest))
    exact ⟨σ, hle, ⟨hheap, { hm.state.mono hle with openUpvalues := hcells }⟩, hnew⟩
  unfold Machine.captureSlot
  dsimp only
  generalize m.openUpvalues.takeWhile (isAbove m.heap slot) = above at hmade ⊢
  generalize n.openUpvalues.takeWhile (isAbove n.heap slot) = above' at hmade ⊢
  generalize m.openUpvalues.dropWhile (isAbove m.heap slot) = rest at hrest hmade ⊢
  generalize n.openUpvalues.dropWhile (isAbove n.heap slot) = rest' at hrest hmade ⊢
  cases hrest with
  | nil => exact hmade
  | @cons r s _ _ hrs _ =>
    rw [List.head?_cons, List.head?_cons, Option.filter_some, Option.filter_some,
      hm.heap.openSlot? hrs]
    by_cases hslot : (n.heap.openSlot? s == some slot) = true
    · rw [if_pos hslot, if_pos hslot]
      exact ⟨ρ, le_refl ρ, hm, hrs⟩
    · rw [if_neg hslot, if_neg hslot]
      exact hmade

/-! Captured variables of the running closure. -/

theorem keeps_frameUpvalue (index : Nat) : ρ.Keeps (frameUpvalue index) (frameUpvalue index) := by
  refine keeps_frame.then fun f g hfg => does_get fun m n hm => ?_
  have hobject := hm.heap.get? hfg.closure
  generalize m.heap.get? f.closure = o? at hobject
  generalize n.heap.get? g.closure = o'? at hobject
  cases hobject with
  | none => exact keeps_breach _
  | some ho =>
    cases ho with
    | @closure c d _ _ hupvalues =>
      have hcell := forall₂_iff_getElem?.1 hupvalues index
      dsimp only
      generalize c.upvalues[index]? = r? at hcell
      generalize d.upvalues[index]? = s? at hcell
      cases hcell with
      | none => exact keeps_breach _
      | some hrs => exact keeps_pure hrs
    | _ => exact keeps_breach _

theorem keeps_readUpvalue (index : Nat) : ρ.Keeps (readUpvalue index) (readUpvalue index) := by
  refine (keeps_frameUpvalue index).then fun r s hrs => does_get fun m n hm => ?_
  have hobject := hm.heap.get? hrs
  generalize m.heap.get? r = o? at hobject
  generalize n.heap.get? s = o'? at hobject
  cases hobject with
  | none => exact keeps_breach _
  | some ho =>
    cases ho with
    | opened slot =>
      have hread := alike_getElem? hm.state.stack slot
      dsimp only
      generalize m.stack[slot]? = v? at hread
      generalize n.stack[slot]? = w? at hread
      cases hread with
      | none => exact keeps_breach _
      | some hvw => exact keeps_pure hvw
    | closed hvw => exact keeps_pure hvw
    | _ => exact keeps_breach _

theorem keeps_writeUpvalue (index : Nat) (hvw : ρ.Alike v w) :
    ρ.Keeps (writeUpvalue index v) (writeUpvalue index w) := by
  refine (keeps_frameUpvalue index).then fun r s hrs => does_get fun m n hm => ?_
  rcases hm.heap.get?_cases hrs with ⟨i, j, rfl, rfl⟩ | ⟨i, j, o, o', rfl, rfl, ho, ho', hoo⟩
  · exact keeps_breach _
  · rw [ho, ho']
    cases hoo with
    | opened slot =>
      dsimp only
      rw [hm.size]
      split
      · exact keeps_setSlot slot hvw
      · exact keeps_breach _
    | closed _ =>
      refine keeps_set (hm.update hrs (fun _ _ _ _ _ => .closed hvw) ?_ ?_)
      · intro u hu
        obtain rfl := Option.some.inj (ho.symm.trans hu)
        exact Or.inr ⟨rfl, rfl⟩
      · intro u hu
        obtain rfl := Option.some.inj (ho'.symm.trans hu)
        exact Or.inr ⟨rfl, rfl⟩
    | _ => exact keeps_breach _

/-! Closures. -/

theorem grows_captureAll (base count : Nat) :
    ρ.Grows (captureAll base count) (captureAll base count) := by
  induction count generalizing ρ with
  | zero => exact Keeps.lift (keeps_pure .nil)
  | succ count ih =>
    refine keeps_fetchByte.then fun flag flag' hflag => ?_
    refine keeps_fetchShort.then fun index index' hindex => ?_
    obtain rfl : flag = flag' := hflag
    obtain rfl : index = index' := hindex
    have hcons {σ : Renaming} {cell cell' : Ref} (hcell : σ.Alike cell cell') :
        σ.Grows (do return cell :: (← captureAll base count))
          (do return cell' :: (← captureAll base count)) :=
      ih.then fun τ cells cells' hle hcells => (keeps_pure (List.Forall₂.cons (hcell.mono hle) hcells)).lift
    dsimp only
    split
    · exact Grows.then (does_modifyGet fun m n hm => hm.captureSlot _)
        fun σ cell cell' _ hcell => hcons hcell
    · exact (keeps_frameUpvalue _).then fun cell cell' hcell => hcons hcell

theorem Holds.code_left (hh : ρ.Holds h k) {o : Object} :
    ρ.left.code r o ↔ o.isCode = true ∧ h.get? r = some o := by
  rw [hh.leftFixture]
  rfl

theorem Holds.code_right (hh : ρ.Holds h k) {o : Object} :
    ρ.right.code s o ↔ o.isCode = true ∧ k.get? s = some o := by
  rw [hh.rightFixture]
  rfl

theorem grows_closeOver (hrs : ρ.pairs r s) : ρ.Grows (closeOver r) (closeOver s) := by
  refine does_get fun m n hm => ?_
  rcases hm.heap.get?_cases hrs with ⟨i, j, rfl, rfl⟩ | ⟨i, j, o, o', rfl, rfl, ho, ho', hoo⟩
  · exact (keeps_breach _).lift
  · rw [ho, ho']
    cases hoo with
    | @function p q hpq =>
      have hcode := hm.heap.code_left.2 ⟨rfl, ho⟩
      have hcode' := hm.heap.code_right.2 ⟨rfl, ho'⟩
      have hcaptured : p.captured = q.captured := by
        cases hpq
        rfl
      refine keeps_frame.then fun f g hfg => ?_
      dsimp only
      rw [hcaptured, hfg.base]
      refine (grows_captureAll _ _).then fun σ cells cells' hle hcells => ?_
      refine grows_pushNew fun m' n' hm' => ?_
      refine hm'.alloc (.closure (hle.pairs hrs) (hpq.mono hle) hcells) ?_ ?_
      · rintro c ⟨⟩
        exact (hm'.heap.code_left.1 (hle.left.code hcode)).2
      · rintro c ⟨⟩
        exact (hm'.heap.code_right.1 (hle.right.code hcode')).2
    | _ => exact (keeps_breach _).lift

theorem grows_makeClosure : ρ.Grows makeClosure makeClosure := by
  refine keeps_fetchConstant.then fun v w hvw => ?_
  cases hvw with
  | ref hrs => exact grows_closeOver hrs
  | _ => exact (keeps_breach _).lift

theorem keeps_closeTop : ρ.Keeps closeTop closeTop := by
  refine does_get fun m n hm => ?_
  rw [alike_isEmpty hm.state.stack, hm.size]
  split
  · exact keeps_breach _
  · refine (keeps_set (hm.closeUpvalues _)).then fun _ _ _ => keeps_pop.then fun _ _ _ => ?_
    exact keeps_pure rfl

end Renaming

end ScriptMachine
