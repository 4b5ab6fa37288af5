import ScriptMachine.Table

/-!
The search of a table without a bound on its steps. `Lands` is the loop itself: a search that never
comes to an accepted entry or an empty slot lands nowhere. With one empty slot in the table every
search lands, and its bounded form gives the landing.
-/

namespace ScriptMachine.Table

/-- The search loop from a slot on, with the first tombstone passed so far. -/
inductive Lands (slots : Array TableSlot) (accept : Entry → Bool) :
    Nat → Option Nat → Landing → Prop where
  | hit {i : Nat} {grave : Option Nat} {e : Entry} (hslot : slots[i]? = some (.occupied e))
      (haccept : accept e = true) : Lands slots accept i grave (.hit i e)
  | pass {i : Nat} {grave : Option Nat} {e : Entry} {l : Landing}
      (hslot : slots[i]? = some (.occupied e)) (hreject : accept e = false)
      (hnext : Lands slots accept ((i + 1) % slots.size) grave l) : Lands slots accept i grave l
  | grave {i : Nat} {grave : Option Nat} {l : Landing} (hslot : slots[i]? = some .tombstone)
      (hnext : Lands slots accept ((i + 1) % slots.size) (grave <|> some i) l) :
      Lands slots accept i grave l
  | stop {i : Nat} {grave : Option Nat} (hslot : slots[i]? = some .empty) :
      Lands slots accept i grave (.vacant (grave.getD i))

/-- A slot is reached from a start if it is some steps on and no slot before it is empty. -/
def Clear (slots : Array TableSlot) (start i : Nat) : Prop :=
  ∃ k < slots.size, i = (start + k) % slots.size ∧
    ∀ j < k, slots[(start + j) % slots.size]? ≠ some .empty

theorem add_succ_mod (i k n : Nat) : (i + (k + 1)) % n = ((i + 1) % n + k) % n := by
  rw [Nat.mod_add_mod]
  congr 1
  omega

/-- A bounded search with an empty slot within its bound is the search itself. -/
theorem lands_probe {slots : Array TableSlot} (accept : Entry → Bool) {steps i k : Nat}
    (grave : Option Nat) (hi : i < slots.size) (hk : k < steps)
    (hempty : slots[(i + k) % slots.size]? = some .empty) :
    Lands slots accept i grave (probe slots accept steps i grave) := by
  induction steps generalizing i k grave with
  | zero => omega
  | succ steps ih =>
    have hnext : (i + 1) % slots.size < slots.size := Nat.mod_lt _ (by omega)
    -- A slot that is not empty is not the one the bound was given for, so the rest of the way
    -- keeps an empty slot within the rest of the bound.
    have hrest (hne : slots[i]? ≠ some .empty) (g : Option Nat) :
        Lands slots accept ((i + 1) % slots.size) g
          (probe slots accept steps ((i + 1) % slots.size) g) := by
      cases k with
      | zero =>
        rw [Nat.add_zero, Nat.mod_eq_of_lt hi] at hempty
        exact absurd hempty hne
      | succ k =>
        rw [add_succ_mod] at hempty
        exact ih g hnext (by omega) hempty
    cases hslot : slots[i]? with
    | none =>
      rw [Array.getElem?_eq_none_iff] at hslot
      omega
    | some slot =>
      cases slot with
      | empty => simpa [probe, hslot] using Lands.stop hslot
      | tombstone =>
        simpa [probe, hslot] using Lands.grave hslot (hrest (by simp [hslot]) _)
      | occupied e =>
        cases haccept : accept e with
        | true => simpa [probe, hslot, haccept] using Lands.hit hslot haccept
        | false =>
          simpa [probe, hslot, haccept] using Lands.pass hslot haccept (hrest (by simp [hslot]) _)

/-- The steps from one slot to another. -/
theorem exists_steps {n start i : Nat} (hstart : start < n) (hi : i < n) :
    ∃ k < n, i = (start + k) % n := by
  by_cases h : start ≤ i
  · exact ⟨i - start, by omega, by rw [Nat.mod_eq_of_lt (by omega)]; omega⟩
  · refine ⟨n + i - start, by omega, ?_⟩
    have hsum : start + (n + i - start) = i + n := by omega
    rw [hsum, Nat.add_mod_right, Nat.mod_eq_of_lt hi]

/-- One empty slot makes every search land. -/
theorem lands_seek {slots : Array TableSlot} (hash : UInt32) (accept : Entry → Bool) {i : Nat}
    (hempty : slots[i]? = some .empty) :
    Lands slots accept (hash.toNat % slots.size) none (seek slots hash accept) := by
  obtain ⟨hi, -⟩ := Array.getElem?_eq_some_iff.1 hempty
  have hstart : hash.toNat % slots.size < slots.size := Nat.mod_lt _ (by omega)
  obtain ⟨k, hk, rfl⟩ := exists_steps hstart hi
  exact lands_probe accept none hstart hk hempty

theorem lands_hit {slots : Array TableSlot} {accept : Entry → Bool} {i j : Nat}
    {grave : Option Nat} {e : Entry} (h : Lands slots accept i grave (.hit j e)) :
    slots[j]? = some (.occupied e) ∧ accept e = true := by
  generalize hl : Landing.hit j e = l at h
  induction h with
  | hit hslot haccept =>
    obtain ⟨rfl, rfl⟩ := Landing.hit.inj hl
    exact ⟨hslot, haccept⟩
  | pass _ _ _ ih => exact ih hl
  | grave _ _ ih => exact ih hl
  | stop => cases hl

/-- The way of a search in vain: `d` slots without an accepted entry, then an empty one. -/
structure Vain (slots : Array TableSlot) (accept : Entry → Bool) (start d : Nat) : Prop where
  empty : slots[(start + d) % slots.size]? = some .empty
  passed : ∀ k < d, slots[(start + k) % slots.size]? ≠ some .empty
  rejected : ∀ k < d, ∀ e, slots[(start + k) % slots.size]? = some (.occupied e) → accept e = false

theorem Vain.zero {slots : Array TableSlot} {accept : Entry → Bool} {i : Nat}
    (hi : i < slots.size) (hslot : slots[i]? = some .empty) : Vain slots accept i 0 :=
  ⟨by rwa [Nat.add_zero, Nat.mod_eq_of_lt hi], by omega, by omega⟩

theorem Vain.succ {slots : Array TableSlot} {accept : Entry → Bool} {i d : Nat}
    (hi : i < slots.size) (hne : slots[i]? ≠ some .empty)
    (hreject : ∀ e, slots[i]? = some (.occupied e) → accept e = false)
    (hrest : Vain slots accept ((i + 1) % slots.size) d) : Vain slots accept i (d + 1) := by
  refine ⟨by rw [add_succ_mod]; exact hrest.empty, ?_, ?_⟩
  · intro k hk
    cases k with
    | zero => rwa [Nat.add_zero, Nat.mod_eq_of_lt hi]
    | succ k =>
      rw [add_succ_mod]
      exact hrest.passed k (by omega)
  · intro k hk
    cases k with
    | zero => rwa [Nat.add_zero, Nat.mod_eq_of_lt hi]
    | succ k =>
      rw [add_succ_mod]
      exact hrest.rejected k (by omega)

/-- A search passes no slot twice. -/
theorem Vain.lt_size {slots : Array TableSlot} {accept : Entry → Bool} {start d : Nat}
    (h : Vain slots accept start d) : d < slots.size := by
  obtain ⟨hlt, -⟩ := Array.getElem?_eq_some_iff.1 h.empty
  apply Nat.lt_of_not_le
  intro hge
  apply h.passed (d - slots.size) (by omega)
  have hround : start + (d - slots.size) + slots.size = start + d := by omega
  rw [← Nat.add_mod_right, hround]
  exact h.empty

/-- A search in vain offers the empty slot at its end or a tombstone before it. -/
theorem lands_vacant {slots : Array TableSlot} {accept : Entry → Bool} {i j : Nat}
    {grave : Option Nat} (hi : i < slots.size) (h : Lands slots accept i grave (.vacant j)) :
    ∃ d, Vain slots accept i d ∧
      (grave = some j ∨ ∃ k ≤ d, j = (i + k) % slots.size ∧
        (slots[j]? = some .empty ∨ slots[j]? = some .tombstone)) := by
  generalize hl : Landing.vacant j = l at h
  induction h with
  | hit => cases hl
  | @pass i g e l hslot hreject _ ih =>
    obtain ⟨d, hvain, hj⟩ := ih (Nat.mod_lt _ (by omega)) hl
    refine ⟨d + 1, hvain.succ hi (by simp [hslot]) (by simp [hslot, hreject]), ?_⟩
    rcases hj with hg | ⟨k, hk, hjk, hjslot⟩
    · exact Or.inl hg
    · exact Or.inr ⟨k + 1, by omega, by rwa [add_succ_mod], hjslot⟩
  | @grave i g l hslot _ ih =>
    obtain ⟨d, hvain, hj⟩ := ih (Nat.mod_lt _ (by omega)) hl
    refine ⟨d + 1, hvain.succ hi (by simp [hslot]) (by simp [hslot]), ?_⟩
    rcases hj with hg | ⟨k, hk, hjk, hjslot⟩
    · cases g with
      | some g => exact Or.inl (by simpa using hg)
      | none =>
        have hij : i = j := by simpa using hg
        subst hij
        exact Or.inr ⟨0, by omega, by rw [Nat.add_zero, Nat.mod_eq_of_lt hi], Or.inr hslot⟩
    · exact Or.inr ⟨k + 1, by omega, by rwa [add_succ_mod], hjslot⟩
  | @stop i g hslot =>
    have hj := Landing.vacant.inj hl
    refine ⟨0, Vain.zero hi hslot, ?_⟩
    cases g with
    | some g => exact Or.inl (by simp [hj])
    | none =>
      have hij : i = j := by simpa using hj.symm
      subst hij
      exact Or.inr ⟨0, by omega, by rw [Nat.add_zero, Nat.mod_eq_of_lt hi], Or.inl hslot⟩

/-- A search ends at an accepted entry or at a slot to put one. -/
theorem seek_cases {slots : Array TableSlot} (hash : UInt32) (accept : Entry → Bool) {i : Nat}
    (hempty : slots[i]? = some .empty) :
    (∃ j e, seek slots hash accept = .hit j e ∧ slots[j]? = some (.occupied e) ∧
      accept e = true) ∨
    (∃ j d, seek slots hash accept = .vacant j ∧ Vain slots accept (hash.toNat % slots.size) d ∧
      Clear slots (hash.toNat % slots.size) j ∧
      (slots[j]? = some .empty ∨ slots[j]? = some .tombstone)) := by
  obtain ⟨hi, -⟩ := Array.getElem?_eq_some_iff.1 hempty
  have hstart : hash.toNat % slots.size < slots.size := Nat.mod_lt _ (by omega)
  have hlands := lands_seek hash accept hempty
  cases hseek : seek slots hash accept with
  | hit j e =>
    rw [hseek] at hlands
    exact Or.inl ⟨j, e, rfl, lands_hit hlands⟩
  | vacant j =>
    rw [hseek] at hlands
    obtain ⟨d, hvain, hg | ⟨k, hk, hjk, hjslot⟩⟩ := lands_vacant hstart hlands
    · cases hg
    · refine Or.inr ⟨j, d, rfl, hvain, ?_, hjslot⟩
      exact ⟨k, by have := hvain.lt_size; omega, hjk, fun m hm => hvain.passed m (by omega)⟩

/-- A search comes to every slot that is reached from its start, so a search in vain leaves no
accepted entry there. -/
theorem Vain.reject_of_clear {slots : Array TableSlot} {accept : Entry → Bool} {start d i : Nat}
    {e : Entry} (h : Vain slots accept start d) (hclear : Clear slots start i)
    (hslot : slots[i]? = some (.occupied e)) : accept e = false := by
  obtain ⟨k, -, rfl, hpassed⟩ := hclear
  rcases Nat.lt_trichotomy k d with hkd | rfl | hdk
  · exact h.rejected k hkd e hslot
  · rw [h.empty] at hslot
    cases hslot
  · exact absurd h.empty (hpassed d hdk)

end ScriptMachine.Table
