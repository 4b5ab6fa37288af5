import ScriptMachine.Proofs.ArraySlots
import ScriptMachine.Proofs.Table.Probing
import Mathlib.Algebra.Group.Nat.Defs

/-!
The slots of a table. Filling a slot changes the live entries and the counts by that slot alone, and
keeps every other entry reached from the slot of its hash. A rebuild places the live entries into
fresh slots one after another, and finds room for each.
-/

namespace ScriptMachine

def TableSlot.isOccupied : TableSlot → Bool
  | .occupied _ => true
  | _ => false

def TableSlot.isUsed : TableSlot → Bool
  | .empty => false
  | _ => true

namespace Table

open ArraySlots

/-- The live entries of some slots, in slot order. -/
def occupants (slots : Array TableSlot) : List Entry := slots.toList.filterMap TableSlot.entry?

/-- A search from the slot of its hash comes to every entry. -/
def Reached (slots : Array TableSlot) : Prop :=
  ∀ i e, slots[i]? = some (.occupied e) → Clear slots (e.hash.toNat % slots.size) i

theorem mem_occupants {slots : Array TableSlot} {e : Entry} :
    e ∈ occupants slots ↔ ∃ i : Nat, slots[i]? = some (.occupied e) := by
  simp only [occupants, List.mem_filterMap]
  constructor
  · rintro ⟨s, hs, he⟩
    obtain ⟨i, hi⟩ := List.mem_iff_getElem?.1 hs
    cases s with
    | occupied e' =>
      obtain rfl : e' = e := by simpa [TableSlot.entry?] using he
      exact ⟨i, by simpa using hi⟩
    | _ => simp [TableSlot.entry?] at he
  · rintro ⟨i, hi⟩
    exact ⟨.occupied e, List.mem_iff_getElem?.2 ⟨i, by simpa using hi⟩, rfl⟩

theorem length_occupants (slots : Array TableSlot) :
    (occupants slots).length = slots.countP TableSlot.isOccupied := by
  rw [occupants, ← Array.countP_toList]
  induction slots.toList with
  | nil => rfl
  | cons s rest ih => cases s <;> simp [List.filterMap_cons, List.countP_cons, TableSlot.entry?,
      TableSlot.isOccupied, ih]

theorem occupants_set {slots : Array TableSlot} {i : Nat} {old : TableSlot}
    (h : slots[i]? = some old) (x : TableSlot) :
    ∃ rest, (occupants slots).Perm (old.entry?.toList ++ rest) ∧
      (occupants (slots.setIfInBounds i x)).Perm (x.entry?.toList ++ rest) := by
  obtain ⟨pre, post, hslots, hset⟩ := exists_split h x
  have hmove (s : TableSlot) : ((pre ++ s :: post).filterMap TableSlot.entry?).Perm
      (s.entry?.toList ++ (pre ++ post).filterMap TableSlot.entry?) := by
    have hs : (s :: post).filterMap TableSlot.entry? =
        s.entry?.toList ++ post.filterMap TableSlot.entry? := by
      cases s <;> simp [List.filterMap_cons, TableSlot.entry?]
    rw [List.filterMap_append, hs, List.filterMap_append, ← List.append_assoc, ← List.append_assoc]
    exact List.perm_append_comm.append_right _
  refine ⟨(pre ++ post).filterMap TableSlot.entry?, ?_, ?_⟩
  · rw [occupants, hslots]
    exact hmove old
  · rw [occupants, hset]
    exact hmove x

theorem countP_isOccupied_le (slots : List TableSlot) :
    slots.countP TableSlot.isOccupied ≤ slots.countP TableSlot.isUsed := by
  apply List.countP_mono_left
  intro s _ hs
  cases s <;> simp_all [TableSlot.isOccupied, TableSlot.isUsed]

/-- With fewer used slots than slots, one is empty. -/
theorem exists_empty {slots : Array TableSlot}
    (h : slots.countP TableSlot.isUsed < slots.size) : ∃ i : Nat, slots[i]? = some .empty := by
  have hne : slots.toList.countP TableSlot.isUsed ≠ slots.toList.length := by
    rw [Array.countP_toList, Array.length_toList]
    omega
  have hsome : ∃ s ∈ slots.toList, ¬ s.isUsed = true := by
    simpa only [ne_eq, List.countP_eq_length, Classical.not_forall, exists_prop] using hne
  obtain ⟨s, hs, hunused⟩ := hsome
  obtain ⟨i, hi⟩ := List.mem_iff_getElem?.1 hs
  cases s with
  | empty => exact ⟨i, by simpa using hi⟩
  | _ => simp [TableSlot.isUsed] at hunused

theorem Clear.set {slots : Array TableSlot} {start i : Nat} (h : Clear slots start i) (j : Nat)
    {x : TableSlot} (hx : x ≠ .empty) : Clear (slots.setIfInBounds j x) start i := by
  obtain ⟨k, hk, hi, hpassed⟩ := h
  refine ⟨k, by simpa using hk, by simpa using hi, ?_⟩
  intro m hm
  have hbefore := hpassed m hm
  simp only [Array.size_setIfInBounds, Array.getElem?_setIfInBounds]
  split
  · split
    · simpa using hx
    · simp
  · exact hbefore

/-- Filling a slot keeps every entry reached, if the new entry is reached. -/
theorem Reached.set {slots : Array TableSlot} (h : Reached slots) (i : Nat) {x : TableSlot}
    (hx : x ≠ .empty)
    (hnew : ∀ e, x = .occupied e → Clear slots (e.hash.toNat % slots.size) i) :
    Reached (slots.setIfInBounds i x) := by
  intro j e hj
  rw [Array.size_setIfInBounds]
  rw [Array.getElem?_setIfInBounds] at hj
  by_cases hij : i = j
  · subst hij
    simp only [if_pos] at hj
    split at hj
    · exact (hnew e (Option.some.inj hj)).set i hx
    · cases hj
  · rw [if_neg hij] at hj
    exact (h j e hj).set i hx

/-! Rebuilding. -/

/-- A number of slots that a table may have. -/
def IsCapacity (n : Nat) : Prop := n = 0 ∨ ∃ k, 3 ≤ k ∧ n = 2 ^ k

theorem IsCapacity.next {n : Nat} (h : IsCapacity n) : IsCapacity (nextCapacity n) := by
  rcases h with rfl | ⟨k, hk, rfl⟩
  · exact Or.inr ⟨3, by omega, rfl⟩
  · refine Or.inr ⟨k + 1, by omega, ?_⟩
    have hle : 2 ^ 3 ≤ 2 ^ k := Nat.pow_le_pow_right (by omega) hk
    rw [nextCapacity, leastCapacity, if_neg (by omega), Nat.pow_succ]

theorem IsCapacity.capacityFor {n : Nat} (h : IsCapacity n) (count fuel : Nat) :
    IsCapacity (capacityFor count fuel n) := by
  induction fuel generalizing n with
  | zero => exact h
  | succ fuel ih =>
    unfold Table.capacityFor
    split
    · exact ih h.next
    · exact h

/-- Each doubling adds eight slots at least, so the bound on the doublings is never reached. -/
theorem exceedsLoad_capacityFor {n : Nat} (count fuel : Nat) (h : IsCapacity n)
    (hfuel : count * 4 ≤ (n + 8 * fuel) * 3) :
    exceedsLoad count (capacityFor count fuel n) = false := by
  induction fuel generalizing n with
  | zero =>
    rw [exceedsLoad, decide_eq_false_iff_not, Table.capacityFor]
    omega
  | succ fuel ih =>
    unfold Table.capacityFor
    split
    · apply ih h.next
      rcases h with rfl | ⟨k, hk, rfl⟩
      · rw [nextCapacity, leastCapacity, if_pos (by omega)]
        omega
      · have hle : 2 ^ 3 ≤ 2 ^ k := Nat.pow_le_pow_right (by omega) hk
        rw [nextCapacity, leastCapacity, if_neg (by omega)]
        omega
    · next hfits => exact Bool.eq_false_iff.2 hfits

/-- Slots that hold `n` entries and no tombstone. -/
structure Packed (slots : Array TableSlot) (n : Nat) : Prop where
  reached : Reached slots
  occupied : slots.countP TableSlot.isOccupied = n
  used : slots.countP TableSlot.isUsed = n

theorem occupants_replicate (n : Nat) : occupants (Array.replicate n .empty) = [] := by
  simp [occupants, TableSlot.entry?]

theorem packed_replicate (n : Nat) : Packed (Array.replicate n .empty) 0 := by
  refine ⟨?_, by simp [TableSlot.isOccupied], by simp [TableSlot.isUsed]⟩
  intro i e hi
  simp [Array.getElem?_replicate] at hi

theorem Packed.not_tombstone {slots : Array TableSlot} {n : Nat} (h : Packed slots n) (i : Nat) :
    slots[i]? ≠ some .tombstone := by
  intro hi
  obtain ⟨pre, post, hslots, -⟩ := exists_split hi .empty
  have hoccupied := h.occupied
  have hused := h.used
  rw [← Array.countP_toList, hslots] at hoccupied hused
  have hpre := countP_isOccupied_le pre
  have hpost := countP_isOccupied_le post
  simp only [List.countP_append, List.countP_cons, TableSlot.isOccupied, TableSlot.isUsed,
    Bool.false_eq_true, if_false, if_true] at hoccupied hused
  omega

theorem Packed.place {slots : Array TableSlot} {n : Nat} (h : Packed slots n)
    (hroom : n < slots.size) (e : Entry) :
    Packed (place slots e) (n + 1) ∧ (place slots e).size = slots.size ∧
      (occupants (place slots e)).Perm (e :: occupants slots) := by
  obtain ⟨i, hempty⟩ := exists_empty (by rw [h.used]; exact hroom)
  rcases seek_cases e.hash (fun _ => false) hempty with
    ⟨j, e', -, -, hfalse⟩ | ⟨j, d, hseek, -, hclear, hj | hj⟩
  · cases hfalse
  · have hplace : Table.place slots e = slots.setIfInBounds j (.occupied e) := by
      rw [Table.place, hseek]
    have hoccupied := countP_set hj (.occupied e) TableSlot.isOccupied
    have hused := countP_set hj (.occupied e) TableSlot.isUsed
    obtain ⟨rest, hold, hnew⟩ := occupants_set hj (.occupied e)
    rw [hplace]
    refine ⟨⟨?_, ?_, ?_⟩, by simp, hnew.trans ?_⟩
    · exact h.reached.set j (by simp) (by rintro e' ⟨⟩; exact hclear)
    · simpa [TableSlot.isOccupied, h.occupied] using hoccupied
    · simpa [TableSlot.isUsed, h.used] using hused
    · exact (hold.cons e).symm
  · exact absurd hj (h.not_tombstone j)

theorem Packed.foldl_place {slots : Array TableSlot} {n : Nat} (h : Packed slots n)
    (es : List Entry) (hroom : n + es.length ≤ slots.size) :
    Packed (es.foldl Table.place slots) (n + es.length) ∧
      (es.foldl Table.place slots).size = slots.size ∧
      (occupants (es.foldl Table.place slots)).Perm (es ++ occupants slots) := by
  induction es generalizing slots n with
  | nil => exact ⟨h, rfl, List.Perm.refl _⟩
  | cons e es ih =>
    simp only [List.length_cons] at hroom ⊢
    obtain ⟨hpacked, hsize, hperm⟩ := h.place (by omega) e
    obtain ⟨hpacked', hsize', hperm'⟩ := ih hpacked (by omega)
    refine ⟨by simpa only [List.foldl_cons, Nat.add_assoc, Nat.add_comm 1] using hpacked',
      hsize'.trans hsize, hperm'.trans ?_⟩
    exact (hperm.append_left es).trans List.perm_middle

/-- A rebuild places the live entries one after another. -/
theorem slots_rebuild (t : Table) (capacity : Nat) :
    (t.rebuild capacity).slots =
      t.entries.foldl place (Array.replicate capacity .empty) := by
  simp only [rebuild, entries, ← Array.foldl_toList, List.foldl_filterMap]
  congr 1
  funext slots s
  cases s <;> rfl

end Table

end ScriptMachine
