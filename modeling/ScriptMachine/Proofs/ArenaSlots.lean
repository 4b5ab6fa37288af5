import ScriptMachine.Arena
import Mathlib.Data.List.Nodup
import Mathlib.Tactic.Common

/-!
The representation of an arena. The free list holds every vacant slot once and no occupied one,
and the count of live values is the number of occupied slots. Storing a value therefore takes a
slot that was vacant and leaves every other slot alone; a sweep empties exactly the white slots.
-/

namespace ScriptMachine.Arena

variable {α : Type}

/-- The free list is the vacant slots, and the count is that of the occupied ones. -/
structure WellFormed (a : Arena α) : Prop where
  free_nodup : a.free.Nodup
  mem_free : ∀ i, i ∈ a.free ↔ i < a.slots.size ∧ a.cell? i = none
  live_eq : a.live = a.slots.countP Option.isSome

theorem lt_size_of_cell? {a : Arena α} {i : Nat} {c : Cell α} (h : a.cell? i = some c) :
    i < a.slots.size := by
  by_contra hi
  simp [cell?, Array.getElem?_eq_none (Nat.le_of_not_lt hi)] at h

theorem cell?_eq_none_of_size_le {a : Arena α} {i : Nat} (h : a.slots.size ≤ i) :
    a.cell? i = none := by
  simp [cell?, Array.getElem?_eq_none h]

theorem cell?_eq_some {a : Arena α} {i : Nat} {c : Cell α} :
    a.cell? i = some c ↔ a.slots[i]? = some (some c) := by
  simp [cell?, Option.join_eq_some_iff]

theorem get?_eq_some {a : Arena α} {i : Nat} {x : α} :
    a.get? i = some x ↔ ∃ c, a.cell? i = some c ∧ c.value = x := by
  simp [get?]

theorem lt_size_of_get? {a : Arena α} {i : Nat} {x : α} (h : a.get? i = some x) :
    i < a.slots.size := by
  obtain ⟨c, hc, -⟩ := get?_eq_some.1 h
  exact lt_size_of_cell? hc

theorem wellFormed_empty : (empty : Arena α).WellFormed where
  free_nodup := List.nodup_nil
  mem_free i := by simp [empty]
  live_eq := rfl

/-! Storing a value. -/

theorem allocate_of_free {a : Arena α} {i : Nat} {rest : List Nat} (h : a.free = i :: rest)
    (x : α) (size : Nat) :
    a.allocate x size =
      (i, ⟨a.slots.setIfInBounds i (some { value := x, size }), rest, a.live + 1⟩) := by
  simp [allocate, h]

theorem allocate_of_full {a : Arena α} (h : a.free = []) (x : α) (size : Nat) :
    a.allocate x size =
      (a.slots.size, ⟨a.slots.push (some { value := x, size }), [], a.live + 1⟩) := by
  simp [allocate, h]

/-- The slot on top of the free list is vacant. -/
theorem WellFormed.vacant_of_free {a : Arena α} (h : a.WellFormed) {i : Nat} {rest : List Nat}
    (hfree : a.free = i :: rest) : i < a.slots.size ∧ a.cell? i = none :=
  (h.mem_free i).mp (hfree ▸ List.mem_cons_self)

theorem WellFormed.allocate_vacant {a : Arena α} (h : a.WellFormed) (x : α) (size : Nat) :
    a.cell? (a.allocate x size).1 = none := by
  cases hfree : a.free with
  | cons i rest =>
    rw [allocate_of_free hfree]
    exact (h.vacant_of_free hfree).2
  | nil =>
    rw [allocate_of_full hfree]
    exact cell?_eq_none_of_size_le (Nat.le_refl _)

/-- Storing a value fills the slot it returns and changes no other. -/
theorem WellFormed.cell?_allocate {a : Arena α} (h : a.WellFormed) (x : α) (size j : Nat) :
    (a.allocate x size).2.cell? j =
      if j = (a.allocate x size).1 then some { value := x, size } else a.cell? j := by
  cases hfree : a.free with
  | cons i rest =>
    have hi := (h.vacant_of_free hfree).1
    simp only [allocate_of_free hfree, cell?, Array.getElem?_setIfInBounds]
    by_cases hij : i = j
    · simp [hij ▸ hi, hij]
    · simp [hij, Ne.symm hij]
  | nil =>
    simp only [allocate_of_full hfree, cell?, Array.getElem?_push]
    by_cases hj : j = a.slots.size <;> simp [hj]

theorem WellFormed.get?_allocate {a : Arena α} (h : a.WellFormed) (x : α) (size j : Nat) :
    (a.allocate x size).2.get? j = if j = (a.allocate x size).1 then some x else a.get? j := by
  simp only [get?, h.cell?_allocate]
  split <;> rfl

/-- Whatever the state of the free list, no other value is changed. -/
theorem get?_allocate_or (a : Arena α) (x : α) (size i : Nat) :
    (a.allocate x size).2.get? i = some x ∨ (a.allocate x size).2.get? i = a.get? i := by
  cases hfree : a.free with
  | cons j rest =>
    rw [allocate_of_free hfree]
    simp only [get?, cell?, Array.getElem?_setIfInBounds]
    by_cases hj : j = i
    · by_cases hi : i < a.slots.size <;> simp [hj, hi]
    · simp [hj]
  | nil =>
    rw [allocate_of_full hfree]
    simp only [get?, cell?, Array.getElem?_push]
    by_cases hi : i = a.slots.size <;> simp [hi]

theorem WellFormed.allocate {a : Arena α} (h : a.WellFormed) (x : α) (size : Nat) :
    (a.allocate x size).2.WellFormed := by
  have hcell := h.cell?_allocate x size
  cases hfree : a.free with
  | cons i rest =>
    rw [allocate_of_free hfree] at hcell ⊢
    obtain ⟨hi, hnone⟩ := h.vacant_of_free hfree
    have hnodup : (i :: rest).Nodup := hfree ▸ h.free_nodup
    refine ⟨hnodup.of_cons, fun j => ?_, ?_⟩
    · have hj := h.mem_free j
      rw [hfree, List.mem_cons] at hj
      rw [hcell j]
      by_cases hij : j = i
      · subst hij
        simp [(List.nodup_cons.mp hnodup).1]
      · simpa [hij] using hj
    · have hslot : a.slots[i] = none := by
        simpa [cell?, Array.getElem?_eq_getElem hi] using hnone
      simp [Array.setIfInBounds, hi, Array.countP_set, hslot, h.live_eq]
  | nil =>
    rw [allocate_of_full hfree] at hcell ⊢
    refine ⟨List.nodup_nil, fun j => ?_, by simp [h.live_eq]⟩
    have hj := h.mem_free j
    rw [hcell j]
    simp only [hfree, List.not_mem_nil, false_iff, not_and, Array.size_push] at hj ⊢
    intro hlt
    by_cases hjs : j = a.slots.size
    · simp [hjs]
    · simpa [hjs] using hj (by omega)

/-! Changing a cell in place. -/

theorem cell?_modifyCell_eq_none (a : Arena α) (i j : Nat) (f : Cell α → Cell α) :
    (a.modifyCell i f).cell? j = none ↔ a.cell? j = none := by
  rw [cell?_modifyCell]
  split <;> simp

theorem WellFormed.modifyCell {a : Arena α} (h : a.WellFormed) (i : Nat)
    (f : Cell α → Cell α) : (a.modifyCell i f).WellFormed where
  free_nodup := h.free_nodup
  mem_free j := by
    rw [cell?_modifyCell_eq_none]
    simpa [Arena.modifyCell] using h.mem_free j
  live_eq := by
    have hmap : (a.slots.modify i (Option.map f)).map Option.isSome = a.slots.map Option.isSome := by
      apply Array.ext_getElem?
      intro j
      simp only [Array.getElem?_map, Array.getElem?_modify]
      split <;> cases a.slots[j]? <;> simp
    have hcount := congrArg (Array.countP id) hmap
    simp only [Array.countP_map, Function.id_comp] at hcount
    exact h.live_eq.trans hcount.symm

theorem WellFormed.modify {a : Arena α} (h : a.WellFormed) (i : Nat) (f : α → α) :
    (a.modify i f).WellFormed := h.modifyCell i _

theorem WellFormed.blacken {a : Arena α} (h : a.WellFormed) (i : Nat) :
    (a.blacken i).WellFormed := h.modifyCell i _

theorem WellFormed.mark {a : Arena α} (h : a.WellFormed) (i : Nat) :
    (a.mark i).2.WellFormed := by
  unfold Arena.mark
  split
  · exact h.modifyCell i _
  · exact h

/-! Marking. -/

theorem isMarked_modifyCell {a : Arena α} {i : Nat} {f : Cell α → Cell α}
    (hf : ∀ c, (f c).isMarked = true) (j : Nat) :
    (a.modifyCell i f).isMarked j = true ↔
      a.isMarked j = true ∨ i = j ∧ (a.get? j).isSome = true := by
  rw [isMarked, isMarked, cell?_modifyCell, get?, Option.isSome_map]
  by_cases hij : i = j
  · cases hcell : a.cell? j with
    | none => simp
    | some c => simp [hij, hf c]
  · simp [hij]

/-- An occupied slot is white or marked. -/
theorem isMarked_of_not_isWhite {a : Arena α} {i : Nat} (hwhite : ¬ a.isWhite i = true)
    (hsome : (a.get? i).isSome = true) : a.isMarked i = true := by
  rw [isWhite] at hwhite
  rw [isMarked]
  cases hcell : a.cell? i with
  | none => simp [get?, hcell] at hsome
  | some c => simpa [hcell, Cell.isMarked] using hwhite

theorem isSome_of_isWhite {a : Arena α} {i : Nat} (h : a.isWhite i = true) :
    (a.get? i).isSome = true := by
  rw [isWhite] at h
  rw [get?, Option.isSome_map]
  cases hcell : a.cell? i with
  | none => simp [hcell] at h
  | some c => rfl

theorem isMarked_mark (a : Arena α) (i j : Nat) :
    (a.mark i).2.isMarked j = true ↔
      a.isMarked j = true ∨ i = j ∧ (a.get? j).isSome = true := by
  unfold mark
  by_cases hwhite : a.isWhite i = true
  · rw [if_pos hwhite]
    exact isMarked_modifyCell (fun _ => rfl) j
  · rw [if_neg hwhite]
    constructor
    · exact Or.inl
    · rintro (hmarked | ⟨rfl, hsome⟩)
      · exact hmarked
      · exact isMarked_of_not_isWhite hwhite hsome

theorem isMarked_blacken (a : Arena α) (i j : Nat) :
    (a.blacken i).isMarked j = true ↔
      a.isMarked j = true ∨ i = j ∧ (a.get? j).isSome = true :=
  isMarked_modifyCell (fun _ => rfl) j

theorem isSome_of_isMarked {a : Arena α} {i : Nat} (h : a.isMarked i = true) :
    (a.get? i).isSome = true := by
  rw [isMarked] at h
  rw [get?, Option.isSome_map]
  cases hcell : a.cell? i with
  | none => simp [hcell] at h
  | some c => rfl

/-! Sweeping. -/

theorem mem_unreached {a : Arena α} {i : Nat} {c : Cell α} :
    (i, c) ∈ a.unreached ↔ a.cell? i = some c ∧ c.isMarked = false := by
  unfold unreached
  rw [List.mem_filterMap]
  constructor
  · rintro ⟨⟨_ | d, j⟩, hmem, hsome⟩
    · simp at hsome
    · have hget := List.mk_mem_zipIdx_iff_getElem?.mp hmem
      cases hmarked : d.isMarked with
      | true => simp [hmarked] at hsome
      | false =>
        simp only [hmarked, Bool.false_eq_true, if_false, Option.some.injEq, Prod.mk.injEq] at hsome
        obtain ⟨rfl, rfl⟩ := hsome
        exact ⟨cell?_eq_some.mpr (by simpa using hget), hmarked⟩
  · rintro ⟨hcell, hmarked⟩
    refine ⟨(some c, i), List.mk_mem_zipIdx_iff_getElem?.mpr ?_, by simp [hmarked]⟩
    simpa using cell?_eq_some.mp hcell

theorem unreached_nodup (a : Arena α) : (a.unreached.map Prod.fst).Nodup := by
  unfold unreached List.Nodup
  rw [List.pairwise_map, List.pairwise_filterMap]
  have hindex : (a.slots.toList.zipIdx.map Prod.snd).Nodup := by
    rw [List.zipIdx_map_snd]
    exact List.nodup_range'
  apply (List.pairwise_map.mp hindex).imp
  rintro ⟨x, i⟩ ⟨y, j⟩ hne ⟨i', c⟩ hc ⟨j', d⟩ hd
  cases x <;> cases y <;> simp_all

private theorem length_unreached_list (l : List (Option (Cell α))) (n : Nat) :
    ((l.zipIdx n).filterMap fun
        | (some c, i) => if c.isMarked then none else some (i, c)
        | (none, _) => none).length + (l.map sweptSlot).countP Option.isSome =
      l.countP Option.isSome := by
  induction l generalizing n with
  | nil => rfl
  | cons x rest ih =>
    have hrest := ih (n + 1)
    cases x with
    | none => simpa [sweptSlot] using hrest
    | some c =>
      cases hmarked : c.isMarked with
      | true =>
        simp [hmarked, sweptSlot] at hrest ⊢
        omega
      | false =>
        simp [hmarked, sweptSlot] at hrest ⊢
        omega

/-- A sweep releases as many values as the count of occupied slots falls. -/
theorem length_unreached (a : Arena α) :
    a.unreached.length + (a.slots.map sweptSlot).countP Option.isSome =
      a.slots.countP Option.isSome := by
  have h := length_unreached_list a.slots.toList 0
  rwa [← Array.toList_map, Array.countP_toList, Array.countP_toList] at h

theorem sweptSlot_eq_some {x : Option (Cell α)} {c : Cell α} :
    sweptSlot x = some c ↔ ∃ d, x = some d ∧ d.isMarked = true ∧ c = { d with colour := .white } := by
  cases x with
  | none => simp [sweptSlot]
  | some d =>
    cases hmarked : d.isMarked <;> simp [sweptSlot, hmarked, eq_comm (a := c)]

theorem get?_sweep {a : Arena α} {i : Nat} {x : α} :
    a.sweep.arena.get? i = some x ↔ a.get? i = some x ∧ a.isMarked i = true := by
  simp only [get?_eq_some, cell?_sweep, sweptSlot_eq_some, isMarked]
  constructor
  · rintro ⟨_, ⟨d, hd, hmarked, rfl⟩, rfl⟩
    exact ⟨⟨d, hd, rfl⟩, by simp [hd, hmarked]⟩
  · rintro ⟨⟨d, hd, rfl⟩, hmarked⟩
    exact ⟨_, ⟨d, hd, by simpa [hd] using hmarked, rfl⟩, rfl⟩

theorem WellFormed.sweep {a : Arena α} (h : a.WellFormed) : a.sweep.arena.WellFormed where
  free_nodup := by
    refine List.Nodup.append (List.nodup_reverse.mpr a.unreached_nodup) h.free_nodup ?_
    intro i hi hfree
    obtain ⟨⟨j, c⟩, hmem, rfl⟩ := List.mem_map.mp (List.mem_reverse.mp hi)
    have hnone := ((h.mem_free j).mp hfree).2
    simp [(mem_unreached.mp hmem).1] at hnone
  mem_free i := by
    rw [cell?_sweep]
    simp only [Arena.sweep, List.mem_append, List.mem_reverse, List.mem_map, Array.size_map,
      h.mem_free i]
    constructor
    · rintro (⟨⟨j, c⟩, hmem, rfl⟩ | ⟨hlt, hnone⟩)
      · obtain ⟨hcell, hmarked⟩ := mem_unreached.mp hmem
        exact ⟨lt_size_of_cell? hcell, by simp [hcell, sweptSlot, hmarked]⟩
      · exact ⟨hlt, by simp [hnone, sweptSlot]⟩
    · rintro ⟨hlt, hswept⟩
      cases hcell : a.cell? i with
      | none => exact Or.inr ⟨hlt, rfl⟩
      | some c =>
        refine Or.inl ⟨(i, c), mem_unreached.mpr ⟨hcell, ?_⟩, rfl⟩
        cases hmarked : c.isMarked with
        | false => rfl
        | true => simp [hcell, sweptSlot, hmarked] at hswept
  live_eq := by
    have hlength := a.length_unreached
    simp only [Arena.sweep, h.live_eq]
    omega

end ScriptMachine.Arena
