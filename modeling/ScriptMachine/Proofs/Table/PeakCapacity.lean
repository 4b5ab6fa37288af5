import Mathlib.Order.Bounds.Basic
import ScriptMachine.Proofs.Table.Runs

/-!
The capacity of a table. It is the least one that holds as many entries as the table has held at
once since it was cleared. A rebuild is due to used slots, tombstones among them, but it makes room
for the live entries alone, so neither tombstones nor overwritten entries nor the number of
operations show in the capacity.
-/

namespace ScriptMachine.Table

/-! Capacities that hold a number of entries. -/

/-- The capacity is the least one that holds a number of entries. -/
def Suits (count capacity : Nat) : Prop :=
  IsLeast {n | IsCapacity n ∧ count * 4 ≤ n * 3} capacity

theorem suits_zero : Suits 0 0 := ⟨⟨Or.inl rfl, Nat.le_refl 0⟩, fun n _ => Nat.zero_le n⟩

theorem Suits.eq_zero {capacity : Nat} (h : Suits 0 capacity) : capacity = 0 :=
  Nat.le_zero.1 (h.2 suits_zero.1)

/-- From one entry on, the capacity is a power of two with eight slots at least. -/
theorem Suits.isLeast {count capacity : Nat} (h : Suits count capacity) (hcount : count ≠ 0) :
    IsLeast {n | (∃ k, n = 2 ^ k) ∧ 8 ≤ n ∧ 4 * count ≤ 3 * n} capacity := by
  obtain ⟨⟨hcapacity, hfits⟩, hleast⟩ := h
  constructor
  · rcases hcapacity with rfl | ⟨k, hk, rfl⟩
    · omega
    · have hle : 2 ^ 3 ≤ 2 ^ k := Nat.pow_le_pow_right (by omega) hk
      exact ⟨⟨k, rfl⟩, by omega, by omega⟩
  · rintro n ⟨⟨k, rfl⟩, height, hroom⟩
    refine hleast ⟨Or.inr ⟨k, ?_, rfl⟩, by omega⟩
    exact (Nat.pow_le_pow_iff_right (by omega : 1 < 2)).1 height

theorem le_nextCapacity (n : Nat) : n ≤ nextCapacity n := by
  unfold nextCapacity
  split <;> omega

theorem le_capacityFor (count fuel n : Nat) : n ≤ capacityFor count fuel n := by
  induction fuel generalizing n with
  | zero => exact Nat.le_refl n
  | succ fuel ih =>
    unfold capacityFor
    split
    · exact (le_nextCapacity n).trans (ih _)
    · exact Nat.le_refl n

/-- No capacity stands between one and the next. -/
theorem IsCapacity.next_le {n c : Nat} (hn : IsCapacity n) (hc : IsCapacity c) (hlt : n < c) :
    nextCapacity n ≤ c := by
  obtain ⟨j, hj, rfl⟩ := hc.resolve_left (by omega)
  rcases hn with rfl | ⟨k, hk, rfl⟩
  · show 2 ^ 3 ≤ 2 ^ j
    exact Nat.pow_le_pow_right (by omega) hj
  · have hle : 2 ^ 3 ≤ 2 ^ k := Nat.pow_le_pow_right (by omega) hk
    have hkj : k < j := (Nat.pow_lt_pow_iff_right (by omega)).1 hlt
    rw [nextCapacity, leastCapacity, if_neg (by omega), ← Nat.pow_succ]
    exact Nat.pow_le_pow_right (by omega) hkj

/-- The doublings do not go past a capacity that has room. -/
theorem IsCapacity.capacityFor_le {n c : Nat} (hn : IsCapacity n) (hc : IsCapacity c) (hle : n ≤ c)
    {count : Nat} (hroom : count * 4 ≤ c * 3) (fuel : Nat) : Table.capacityFor count fuel n ≤ c := by
  induction fuel generalizing n with
  | zero => exact hle
  | succ fuel ih =>
    unfold Table.capacityFor
    split
    · next hexceeds =>
      rw [exceedsLoad, decide_eq_true_iff] at hexceeds
      exact ih hn.next (hn.next_le hc (by omega))
    · exact hle

/-! Operations on a table. -/

variable {t : Table} {peak : Nat}

theorem live_reserve (t : Table) : t.reserve.live = t.live := by
  unfold reserve
  split <;> rfl

theorem live_addFresh (t : Table) (p : Pool) (e : Entry) :
    (t.addFresh p e).live = t.live + 1 := by
  unfold addFresh
  dsimp only
  split <;> rw [live_reserve]

theorem capacity_addFresh (t : Table) (p : Pool) (e : Entry) :
    (t.addFresh p e).capacity = t.reserve.capacity := by
  unfold addFresh
  dsimp only
  split <;> exact Array.size_setIfInBounds

/-- A table of its shape that has never held more entries at once than its capacity is for. -/
structure Sized (t : Table) (peak : Nat) : Prop where
  shape : t.Shape
  live_le : t.live ≤ peak
  suits : Suits peak t.capacity

theorem sized_empty : Sized .empty 0 := ⟨shape_empty, Nat.le_refl 0, suits_zero⟩

/-- Making room goes by the live entries: the capacity grows only if they are more than ever. -/
theorem Sized.reserve (h : t.Sized peak) : Suits (max peak (t.live + 1)) t.reserve.capacity := by
  obtain ⟨⟨hcapacity, hpeak⟩, hleast⟩ := h.suits
  have hlive := h.shape.live_le_used
  have hbelow {n : Nat} (hn : IsCapacity n) (hroom : max peak (t.live + 1) * 4 ≤ n * 3) :
      t.capacity ≤ n := hleast ⟨hn, by omega⟩
  unfold Table.reserve
  split
  · have hfits := exceedsLoad_capacityFor (t.live + 1) (t.live + 2) hcapacity (by omega)
    rw [exceedsLoad, decide_eq_false_iff_not, Nat.not_lt] at hfits
    have hgrown := le_capacityFor (t.live + 1) (t.live + 2) t.capacity
    have htarget := hcapacity.capacityFor (t.live + 1) (t.live + 2)
    rw [(h.shape.rebuild htarget hfits).2.1]
    refine ⟨⟨htarget, by omega⟩, ?_⟩
    rintro n ⟨hn, hroom⟩
    exact hcapacity.capacityFor_le hn (hbelow hn hroom) (by omega) _
  · next hfits =>
    rw [exceedsLoad, decide_eq_true_iff, Nat.not_lt] at hfits
    exact ⟨⟨hcapacity, by omega⟩, fun n hn => hbelow hn.1 hn.2⟩

/-- An overwritten entry leaves the capacity as it is. -/
theorem Sized.insert (h : t.Sized peak) (p : Pool) (key value : Value) (kind : EntryKind) :
    (t.insert p key value kind).2.Sized (max peak (t.insert p key value kind).2.live) ∧
      0 < (t.insert p key value kind).2.live := by
  have hshape := (h.shape.insert p key value kind).1
  rcases h.shape.insert_cases p key value kind with ⟨-, hinsert⟩ | ⟨i, e, hi, -, hinsert⟩
  · rw [hinsert] at hshape ⊢
    dsimp only
    rw [live_addFresh]
    refine ⟨⟨hshape, by rw [live_addFresh]; omega, ?_⟩, by omega⟩
    rw [capacity_addFresh]
    exact h.reserve
  · have hlive : 0 < t.live := by
      rw [h.shape.live_eq_length]
      exact List.length_pos_of_mem (mem_entries.2 ⟨i, hi⟩)
    have hcapacity : (t.insert p key value kind).2.capacity = t.capacity := by
      rw [hinsert]
      exact Array.size_setIfInBounds
    have hsame : (t.insert p key value kind).2.live = t.live := by rw [hinsert]
    rw [hsame, Nat.max_eq_left h.live_le]
    exact ⟨⟨hshape, hsame ▸ h.live_le, hcapacity ▸ h.suits⟩, hlive⟩

/-- A tombstone leaves the capacity as it is. -/
theorem Sized.erase (h : t.Sized peak) (p : Pool) (key : Value) :
    (t.erase p key).2.Sized peak := by
  have hsmaller : (t.erase p key).2.live ≤ t.live ∧ (t.erase p key).2.capacity = t.capacity := by
    unfold Table.erase capacity
    dsimp only
    split
    · exact ⟨Nat.le_refl _, rfl⟩
    · split
      · exact ⟨Nat.sub_le _ _, Array.size_setIfInBounds⟩
      · exact ⟨Nat.le_refl _, rfl⟩
  exact ⟨(h.shape.erase p key).1, hsmaller.1.trans h.live_le, hsmaller.2 ▸ h.suits⟩

/-- No stored entry makes the table smaller. -/
theorem le_live_insert (h : t.Shape) (p : Pool) (key value : Value) (kind : EntryKind) :
    t.live ≤ (t.insert p key value kind).2.live := by
  rcases h.insert_cases p key value kind with ⟨-, hinsert⟩ | ⟨i, e, hi, -, hinsert⟩
  · rw [hinsert]
    dsimp only
    rw [live_addFresh]
    exact Nat.le_succ _
  · rw [hinsert]

theorem le_live_insertAll (h : t.Shape) (p : Pool) (added : List Entry) :
    t.live ≤ (t.insertAll p added).live := by
  induction added generalizing t with
  | nil => exact Nat.le_refl _
  | cons e rest ih =>
    exact (le_live_insert h p e.key e.value e.kind).trans (ih (h.insert p e.key e.value e.kind).1)

/-- While entries are stored one after another the table never has more of them than in the end. -/
theorem Sized.insertAll (h : t.Sized peak) (p : Pool) (added : List Entry) :
    (t.insertAll p added).Sized (max peak (t.insertAll p added).live) ∧
      (added ≠ [] → 0 < (t.insertAll p added).live) := by
  induction added generalizing t peak with
  | nil =>
    refine ⟨?_, fun hne => absurd rfl hne⟩
    rw [Nat.max_eq_left (show (t.insertAll p []).live ≤ peak from h.live_le)]
    exact h
  | cons e rest ih =>
    obtain ⟨hinsert, hpos⟩ := h.insert p e.key e.value e.kind
    have hgrows := le_live_insertAll hinsert.shape p rest
    obtain ⟨hrest, -⟩ := ih hinsert
    rw [Nat.max_assoc, Nat.max_eq_right hgrows] at hrest
    exact ⟨hrest, fun _ => Nat.lt_of_lt_of_le hpos hgrows⟩

/-! Runs. -/

/-- The past of a table since it was cleared: how many entries were stored, and how many it has
held at once at most. -/
structure Past where
  stored : Nat := 0
  peak : Nat := 0

namespace Store

variable {s : Store}

/-- How many entries an operation stores in one of the tables. -/
def stored (s : Store) (i : Nat) : Action → Nat
  | .set j _ _ _ => if j = i then 1 else 0
  | .addAll j k => if j = i then (s.tables k).entries.length else 0
  | .extend j added => if j = i then added.length else 0
  | _ => 0

/-- The past of one of the tables after one more operation. -/
def pastStep (s : Store) (i : Nat) (past : Past) : Action → Past
  | .clear j => if j = i then {} else past
  | a =>
    { stored := past.stored + s.stored i a
      peak := max past.peak ((s.step a).2.tables i).size }

/-- The past of one of the tables after a run. -/
def past (s : Store) (i : Nat) (before : Past) : List Action → Past
  | [] => before
  | a :: rest => (s.step a).2.past i (s.pastStep i before a) rest

/-- The capacity of a table suits its past, and it has held entries exactly if some were stored. -/
structure Kept (s : Store) (i : Nat) (past : Past) : Prop where
  sized : (s.tables i).Sized past.peak
  peak_pos : 0 < past.peak ↔ 0 < past.stored

theorem kept_empty (i : Nat) : Kept {} i {} := ⟨sized_empty, Iff.rfl⟩

theorem put_self (s : Store) (i : Nat) (t : Table) : (s.put i t).tables i = t := if_pos rfl

theorem put_of_ne (s : Store) {i j : Nat} (hne : j ≠ i) (t : Table) :
    (s.put j t).tables i = s.tables i :=
  if_neg hne.symm

variable {i : Nat} {past : Past}

/-- An operation that stores something in the table leaves entries there. -/
theorem Kept.store {s' : Store} {more : Nat} (h : Kept s i past)
    (hsized : (s'.tables i).Sized (max past.peak (s'.tables i).live))
    (hpos : more ≠ 0 → 0 < (s'.tables i).live) (hnone : more = 0 → (s'.tables i).live ≤ past.peak) :
    Kept s' i { stored := past.stored + more, peak := max past.peak (s'.tables i).size } := by
  refine ⟨hsized, ?_⟩
  have hpast := h.peak_pos
  show 0 < max past.peak (s'.tables i).live ↔ 0 < past.stored + more
  rcases Nat.eq_zero_or_pos more with hmore | hmore
  · have hlive := hnone hmore
    omega
  · have hlive := hpos (by omega)
    omega

/-- An operation that stores nothing in the table leaves no more entries than there were. -/
theorem Kept.idle {s' : Store} (h : Kept s i past) (hsized : (s'.tables i).Sized past.peak) :
    Kept s' i { stored := past.stored, peak := max past.peak (s'.tables i).size } := by
  have hsame : max past.peak (s'.tables i).live = past.peak := Nat.max_eq_left hsized.live_le
  show Kept s' i { stored := past.stored + 0, peak := max past.peak (s'.tables i).size }
  exact h.store (hsame.symm ▸ hsized) (fun hne => absurd rfl hne) fun _ => hsized.live_le

/-- An operation on another table leaves the table as it is. -/
theorem Kept.put_of_ne {j : Nat} (h : Kept s i past) (hne : j ≠ i) (t : Table) :
    Kept (s.put j t) i { stored := past.stored, peak := max past.peak ((s.put j t).tables i).size } :=
  h.idle (by rw [Store.put_of_ne s hne]; exact h.sized)

/-- Entries stored one after another in one of the tables. -/
theorem Kept.insertAll (h : Kept s i past) (j : Nat) (added : List Entry) :
    Kept (s.put j ((s.tables j).insertAll s.pool added)) i
      { stored := past.stored + if j = i then added.length else 0
        peak := max past.peak
          ((s.put j ((s.tables j).insertAll s.pool added)).tables i).size } := by
  by_cases hj : j = i
  · subst hj
    obtain ⟨hsized, hpos⟩ := h.sized.insertAll s.pool added
    rw [if_pos rfl]
    apply h.store <;> rw [put_self]
    · exact hsized
    · exact fun hne => hpos fun hnil => hne (by rw [hnil]; rfl)
    · intro hnil
      rw [List.length_eq_zero_iff.1 hnil]
      exact h.sized.live_le
  · rw [if_neg hj]
    exact h.put_of_ne hj _

/-- One operation keeps the capacity of a table to its past. -/
theorem Kept.step (h : Kept s i past) (a : Action) :
    Kept (s.step a).2 i (s.pastStep i past a) := by
  cases a with
  | set j key value kind => exact h.insertAll j [⟨key, value, kind, s.pool.hashKey key⟩]
  | addAll j k => exact h.insertAll j (s.tables k).entries
  | extend j added => exact h.insertAll j added
  | remove j key =>
    by_cases hj : j = i
    · subst hj
      refine h.idle ?_
      show ((s.put j _).tables j).Sized past.peak
      rw [put_self]
      exact h.sized.erase s.pool key
    · exact h.put_of_ne hj _
  | clear j =>
    by_cases hj : j = i
    · subst hj
      rw [pastStep, if_pos rfl]
      refine ⟨?_, Iff.rfl⟩
      show ((s.put j .empty).tables j).Sized 0
      rw [put_self]
      exact sized_empty
    · rw [pastStep, if_neg hj]
      refine ⟨?_, h.peak_pos⟩
      show ((s.put j .empty).tables i).Sized past.peak
      rw [Store.put_of_ne s hj]
      exact h.sized
  | intern text => exact h.idle h.sized
  | mark j => exact h.idle h.sized
  | sweep => exact h.idle h.sized

/-- A whole run keeps the capacity of a table to its past. -/
theorem Kept.run (h : Kept s i past) (actions : List Action) :
    Kept (s.run actions).2 i (s.past i past actions) := by
  induction actions generalizing s past with
  | nil => exact h
  | cons a rest ih => exact ih (h.step a)

/-- A table in which nothing was stored since it was cleared has no slots. Otherwise it has the
fewest slots, a power of two from eight on, of which the most entries that it has held at once since
then are at most three quarters. So tables with the same peak have the same capacity, whatever
was stored, overwritten and removed in how many operations. -/
theorem capacity_of_peak (actions : List Action) (i : Nat) :
    let t := (run {} actions).2.tables i
    let since := Store.past {} i {} actions
    (since.stored = 0 → t.capacity = 0) ∧
      (since.stored ≠ 0 →
        IsLeast {n | (∃ k, n = 2 ^ k) ∧ 8 ≤ n ∧ 4 * since.peak ≤ 3 * n} t.capacity) ∧
      ∀ others j, (Store.past {} j {} others).peak = since.peak →
        ((run {} others).2.tables j).capacity = t.capacity := by
  have hkept := (kept_empty i).run actions
  have hpos := hkept.peak_pos
  refine ⟨?_, ?_, ?_⟩
  · intro hstored
    have hpeak : (Store.past {} i {} actions).peak = 0 := by omega
    exact (hpeak ▸ hkept.sized.suits).eq_zero
  · intro hstored
    have hpeak : (Store.past {} i {} actions).peak ≠ 0 := by omega
    exact hkept.sized.suits.isLeast hpeak
  · intro others j hpeak
    have hothers := ((kept_empty j).run others).sized.suits
    rw [hpeak] at hothers
    exact hothers.unique hkept.sized.suits

end Store

end ScriptMachine.Table
