import ScriptMachine.Heap
import ScriptMachine.Proofs.ArraySlots
import ScriptMachine.Proofs.PoolTexts

/-!
Marking. Shading a reference marks what it leads to and nothing else, and changes no contents. An
object that turns from white to gray enters the gray list, so the white objects and the gray list
together never grow, and each scan makes them one fewer: tracing comes to an end on every heap.
-/

namespace ScriptMachine

namespace Arena

variable {α : Type}

/-- How many slots are white. -/
def whites (a : Arena α) : Nat :=
  a.slots.countP fun s => s.any fun c => c.colour == .white

theorem whites_modifyCell (a : Arena α) (i : Nat) {f : Cell α → Cell α}
    (hf : ∀ c, (f c).colour ≠ .white) :
    (a.modifyCell i f).whites + (a.isWhite i).toNat = a.whites := by
  unfold whites modifyCell isWhite cell?
  cases hslot : a.slots[i]? with
  | none =>
    have hsame : a.slots.modify i (Option.map f) = a.slots := by
      apply Array.ext_getElem?
      intro j
      rw [Array.getElem?_modify]
      by_cases hij : i = j
      · simp [← hij, hslot]
      · simp [hij]
    simp [hsame]
  | some s =>
    have hcount := ArraySlots.countP_set hslot (s.map f) fun s => s.any fun c => c.colour == .white
    have hdark : ((s.map f).any fun c => c.colour == .white) = false := by
      cases s with
      | none => rfl
      | some c => simpa using hf c
    rw [ArraySlots.modify_eq_set hslot]
    rw [hdark] at hcount
    simpa using hcount

end Arena

namespace Heap

/-- A reference leads to an object or a text. -/
def Occupied (h : Heap) : Ref → Prop
  | .object i => (h.objects.get? i).isSome = true
  | .text i => (h.pool.arena.get? i).isSome = true

/-- Two heaps that hold the same objects and texts in the same slots. -/
structure SameContents (h h' : Heap) : Prop where
  objects : ∀ i, h'.objects.get? i = h.objects.get? i
  texts : ∀ i, h'.pool.arena.get? i = h.pool.arena.get? i
  index : h'.pool.index = h.pool.index

structure WellFormed (h : Heap) : Prop where
  objects : h.objects.WellFormed
  pool : h.pool.WellFormed

namespace SameContents

theorem refl (h : Heap) : SameContents h h := ⟨fun _ => rfl, fun _ => rfl, rfl⟩

theorem trans {h h' h'' : Heap} (hleft : SameContents h h') (hright : SameContents h' h'') :
    SameContents h h'' where
  objects i := (hright.objects i).trans (hleft.objects i)
  texts i := (hright.texts i).trans (hleft.texts i)
  index := hright.index.trans hleft.index

theorem occupied_iff {h h' : Heap} (hsame : SameContents h h') (r : Ref) :
    h'.Occupied r ↔ h.Occupied r := by
  cases r with
  | object i => rw [Occupied, Occupied, hsame.objects]
  | text i => rw [Occupied, Occupied, hsame.texts]

end SameContents

theorem sameContents_mark (h : Heap) (r : Ref) : SameContents h (h.mark r) := by
  cases r with
  | object i => exact ⟨h.objects.get?_mark i, fun _ => rfl, rfl⟩
  | text i =>
    refine ⟨fun _ => rfl, h.pool.get?_mark i, ?_⟩
    show (h.pool.mark i).index = h.pool.index
    unfold Pool.mark
    split <;> rfl

theorem WellFormed.mark {h : Heap} (hwf : h.WellFormed) (r : Ref) : (h.mark r).WellFormed := by
  cases r with
  | object i => exact ⟨hwf.objects.mark i, hwf.pool⟩
  | text i => exact ⟨hwf.objects, hwf.pool.mark i⟩

/-- Shading a reference marks what it leads to and nothing else. -/
theorem isMarked_mark (h : Heap) (r s : Ref) :
    (h.mark r).isMarked s = true ↔ h.isMarked s = true ∨ r = s ∧ h.Occupied s := by
  cases r with
  | object i =>
    cases s with
    | object j =>
      rw [Ref.object.injEq]
      exact h.objects.isMarked_mark i j
    | text j => simp [mark, isMarked]
  | text i =>
    cases s with
    | object j => simp [mark, isMarked]
    | text j =>
      rw [Ref.text.injEq]
      exact h.pool.isMarked_mark i j

theorem occupied_of_isMarked {h : Heap} {r : Ref} (hr : h.isMarked r = true) : h.Occupied r := by
  cases r with
  | object i => exact Arena.isSome_of_isMarked hr
  | text i => exact Arena.isSome_of_isMarked hr

/-- An object marked by shading waits in the gray list. -/
theorem mem_gray_mark {h : Heap} {r : Ref} {i : Nat} :
    i ∈ (h.mark r).gray ↔ i ∈ h.gray ∨ r = .object i ∧ h.objects.isWhite i = true := by
  cases r with
  | object j =>
    simp only [mark, Arena.mark, Ref.object.injEq]
    by_cases hwhite : h.objects.isWhite j = true
    · simp only [hwhite, if_true, List.mem_cons]
      constructor
      · rintro (rfl | hmem)
        · exact Or.inr ⟨rfl, hwhite⟩
        · exact Or.inl hmem
      · rintro (hmem | ⟨rfl, -⟩)
        · exact Or.inr hmem
        · exact Or.inl rfl
    · simp only [hwhite, if_false, Bool.false_eq_true]
      constructor
      · exact Or.inl
      · rintro (hmem | ⟨rfl, hcontra⟩)
        · exact hmem
        · exact absurd hcontra hwhite
  | text j => simp [mark]

/-! Marking and scanning come to an end. -/

/-- What tracing has left to do at most: the gray objects and the white ones. -/
def work (h : Heap) : Nat := h.gray.length + h.objects.whites

theorem work_mark (h : Heap) (r : Ref) : (h.mark r).work = h.work := by
  cases r with
  | object i =>
    simp only [work, mark, Arena.mark]
    by_cases hwhite : h.objects.isWhite i = true
    · have hcount := h.objects.whites_modifyCell i
        (f := fun c => { c with colour := .gray }) (by simp)
      rw [hwhite, Bool.toNat_true] at hcount
      simp only [hwhite, if_true, List.length_cons]
      omega
    · simp [hwhite]
  | text i => rfl

theorem work_markAll (h : Heap) (refs : List Ref) : (h.markAll refs).work = h.work := by
  induction refs generalizing h with
  | nil => rfl
  | cons r refs ih => exact (ih (h.mark r)).trans (h.work_mark r)

/-- A scan leaves less to do. -/
theorem work_scan {h : Heap} {i : Nat} {rest : List Nat} (hgray : h.gray = i :: rest) :
    (({ h with gray := rest } : Heap).scan i).work < h.work := by
  have hcount := h.objects.whites_modifyCell i
    (f := fun c => { c with colour := .black }) (by simp)
  have hscan : (({ h with gray := rest } : Heap).scan i).work =
      rest.length + (h.objects.blacken i).whites := work_markAll _ _
  rw [hscan, work, hgray, List.length_cons, Arena.blacken]
  omega

/-- The tracing loop without a bound on its steps. -/
inductive Traces : Heap → Heap → Prop where
  | done {h : Heap} (hgray : h.gray = []) : Traces h h
  | scan {h h' : Heap} {i : Nat} {rest : List Nat} (hgray : h.gray = i :: rest)
      (hrest : Traces (({ h with gray := rest } : Heap).scan i) h') : Traces h h'

theorem traces_traceWith {fuel : Nat} {h : Heap} (hfuel : h.work ≤ fuel) :
    Traces h (h.traceWith fuel) := by
  induction fuel generalizing h with
  | zero =>
    have hgray : h.gray = [] := by
      rw [work] at hfuel
      exact List.length_eq_zero_iff.1 (by omega)
    exact Traces.done hgray
  | succ fuel ih =>
    unfold traceWith
    split
    · next hgray => exact Traces.done hgray
    · next i rest hgray =>
      have hless := work_scan hgray
      exact Traces.scan hgray (ih (by omega))

/-- Tracing ends on every heap, cyclic or not. -/
theorem traces_trace (h : Heap) : Traces h h.trace := by
  apply traces_traceWith
  have hle : h.objects.whites ≤ h.objects.slots.size := Array.countP_le_size
  rw [work]
  omega

end Heap

end ScriptMachine
