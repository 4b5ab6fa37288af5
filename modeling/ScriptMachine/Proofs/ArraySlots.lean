/-!
One slot of an array. Writing a slot leaves the slots before it and after it, so a count over the
array changes by that slot alone. Reading and cutting give nothing but what the array has.
-/

namespace ScriptMachine.ArraySlots

variable {α : Type}

/-- A slot divides the others into those before it and those after it. -/
theorem exists_split {slots : Array α} {i : Nat} {old : α} (h : slots[i]? = some old) (x : α) :
    ∃ pre post, slots.toList = pre ++ old :: post ∧
      (slots.setIfInBounds i x).toList = pre ++ x :: post := by
  obtain ⟨hi, rfl⟩ := Array.getElem?_eq_some_iff.1 h
  refine ⟨slots.toList.take i, slots.toList.drop (i + 1), ?_, ?_⟩
  · rw [← Array.getElem_toList hi, List.getElem_cons_drop, List.take_append_drop]
  · rw [Array.toList_setIfInBounds, List.set_eq_take_append_cons_drop, if_pos (by simpa using hi)]

theorem countP_set {slots : Array α} {i : Nat} {old : α} (h : slots[i]? = some old) (x : α)
    (p : α → Bool) :
    (slots.setIfInBounds i x).countP p + (p old).toNat = slots.countP p + (p x).toNat := by
  obtain ⟨pre, post, hslots, hset⟩ := exists_split h x
  rw [← Array.countP_toList, ← Array.countP_toList, hslots, hset]
  cases hold : p old <;> cases hx : p x <;> simp [hold, hx] <;> omega

theorem modify_eq_set {slots : Array α} {i : Nat} {old : α} (h : slots[i]? = some old)
    (f : α → α) : slots.modify i f = slots.setIfInBounds i (f old) := by
  obtain ⟨hi, hold⟩ := Array.getElem?_eq_some_iff.1 h
  apply Array.ext_getElem?
  intro j
  rw [Array.getElem?_modify, Array.getElem?_setIfInBounds]
  by_cases hij : i = j
  · subst hij
    simp [hi, hold]
  · simp [hij]

theorem getD_of_forall {xs : Array α} {d : α} {P : α → Prop} (hxs : ∀ x ∈ xs, P x) (hd : P d)
    (i : Nat) : P (xs.getD i d) := by
  by_cases hi : i < xs.size
  · rw [Array.getD_eq_getD_getElem?, Array.getElem?_eq_getElem hi]
    exact hxs _ (Array.getElem_mem hi)
  · rw [Array.getD_eq_getD_getElem?, Array.getElem?_eq_none (by omega)]
    exact hd

theorem mem_of_mem_pop {xs : Array α} {x : α} (hx : x ∈ xs.pop) : x ∈ xs := by
  rw [← Array.mem_toList_iff, Array.toList_pop] at hx
  exact Array.mem_toList_iff.1 ((List.dropLast_sublist _).subset hx)

theorem mem_of_mem_shrink {xs : Array α} {n : Nat} {x : α} (hx : x ∈ xs.shrink n) : x ∈ xs := by
  rw [← Array.mem_toList_iff, Array.toList_shrink] at hx
  exact Array.mem_toList_iff.1 (List.mem_of_mem_take hx)

theorem getElem?_shrink (xs : Array α) (n i : Nat) :
    (xs.shrink n)[i]? = if i < n then xs[i]? else none := by
  rw [← Array.getElem?_toList, Array.toList_shrink, List.getElem?_take, Array.getElem?_toList]

theorem shrink_append (xs ys : Array α) (n : Nat) :
    (xs ++ ys).shrink (xs.size + n) = xs ++ ys.extract 0 n := by
  apply Array.ext'
  simp [List.take_of_length_le]

theorem extract_append (xs ys : Array α) (n : Nat) :
    (xs ++ ys).extract (xs.size + n) (xs ++ ys).size = ys.extract n ys.size := by
  rw [Array.size_append, Array.extract_append]
  simp

theorem mem_of_mem_extract {xs : Array α} {i j : Nat} {x : α} (hx : x ∈ xs.extract i j) :
    x ∈ xs := by
  obtain ⟨k, hk, rfl⟩ := Array.mem_iff_getElem.1 hx
  rw [Array.getElem_extract]
  exact Array.getElem_mem _

end ScriptMachine.ArraySlots
