import ScriptMachine.Proofs.Table.Runs

/-!
Searches end. Over every run, with any keys, a table with slots has an empty one, so the search for
a key, the search for a text and every placement of a rebuild land, and no counter is asked for less
than it holds.
-/

namespace ScriptMachine

def TableSlot.isTombstone : TableSlot → Bool
  | .tombstone => true
  | _ => false

namespace Table

theorem countP_isUsed (slots : Array TableSlot) : slots.countP TableSlot.isUsed =
    slots.countP TableSlot.isOccupied + slots.countP TableSlot.isTombstone := by
  simp only [← Array.countP_toList]
  induction slots.toList with
  | nil => rfl
  | cons s rest ih =>
    cases s <;> simp [List.countP_cons, TableSlot.isUsed, TableSlot.isOccupied,
      TableSlot.isTombstone, ih] <;> omega

theorem IsCapacity.and_pred {n : Nat} (h : IsCapacity n) (hn : n ≠ 0) (k : Nat) :
    k &&& (n - 1) = k % n := by
  rcases h with hzero | ⟨m, -, rfl⟩
  · exact absurd hzero hn
  · exact Nat.and_two_pow_sub_one_eq_mod k m

/-- The capacity that a table is rebuilt with when it lacks room. -/
def target (t : Table) : Nat := capacityFor (t.live + 1) (t.live + 2) t.capacity

/-- What a table promises of its slots, its counters and its searches. -/
structure Safe (p : Pool) (t : Table) : Prop where
  capacity : t.capacity = 0 ∨ ∃ k, 3 ≤ k ∧ t.capacity = 2 ^ k
  live : t.live = t.slots.countP TableSlot.isOccupied
  used : t.used = t.slots.countP TableSlot.isOccupied + t.slots.countP TableSlot.isTombstone
  load : t.used * 4 ≤ t.capacity * 3
  hashed : ∀ (i : Nat) (e : Entry), t.slots[i]? = some (.occupied e) → e.hash = p.hashKey e.key
  clear : ∀ (i : Nat) (e : Entry), t.slots[i]? = some (.occupied e) →
    Clear t.slots (e.hash.toNat &&& (t.capacity - 1)) i
  /-- The remainders of a search are the masks of a power of two. -/
  mask : t.capacity ≠ 0 → ∀ k, k &&& (t.capacity - 1) = k % t.capacity
  empty : t.capacity ≠ 0 → ∃ i : Nat, t.slots[i]? = some .empty
  key_lands : t.capacity ≠ 0 → ∀ key,
    Lands t.slots (holdsKey p key (p.hashKey key)) ((p.hashKey key).toNat % t.capacity) none
      (seek t.slots (p.hashKey key) (holdsKey p key (p.hashKey key)))
  text_lands : t.capacity ≠ 0 → ∀ text,
    Lands t.slots (holdsText p text (Hash.text text)) ((Hash.text text).toNat % t.capacity) none
      (seek t.slots (Hash.text text) (holdsText p text (Hash.text text)))
  /-- The doublings stop at a capacity with room. -/
  growth_stops : exceedsLoad (t.live + 1) t.target = false
  /-- Each entry that a rebuild moves finds a slot among those that hold the entries before it. -/
  place_lands : ∀ moved e rest, t.entries = moved ++ e :: rest →
    Lands (moved.foldl place (Array.replicate t.target .empty)) (fun _ => false)
      (e.hash.toNat % t.target) none
      (seek (moved.foldl place (Array.replicate t.target .empty)) e.hash fun _ => false)
  /-- After making room, the search for the slot of a new entry lands. -/
  fresh_lands : ∀ key,
    Lands t.reserve.slots (holdsKey p key (p.hashKey key))
      ((p.hashKey key).toNat % t.reserve.capacity) none
      (seek t.reserve.slots (p.hashKey key) (holdsKey p key (p.hashKey key)))
  target_pos : 0 < t.target
  reserve_pos : 0 < t.reserve.capacity
  live_le_used : t.live ≤ t.used
  capacity_pos : t.live ≠ 0 → 0 < t.capacity
  live_pos : ∀ key, (t.erase p key).1 = true → 0 < t.live

theorem Shape.lands_place {t : Table} (h : t.Shape) {moved : List Entry} {e : Entry}
    {rest : List Entry} {n : Nat} (hentries : t.entries = moved ++ e :: rest)
    (hroom : (t.live + 1) * 4 ≤ n * 3) :
    Lands (moved.foldl place (Array.replicate n .empty)) (fun _ => false) (e.hash.toNat % n) none
      (seek (moved.foldl place (Array.replicate n .empty)) e.hash fun _ => false) := by
  have hlength := h.live_eq_length
  rw [hentries, List.length_append, List.length_cons] at hlength
  obtain ⟨hpacked, hsize, -⟩ :=
    (packed_replicate n).foldl_place moved (by rw [Array.size_replicate]; omega)
  rw [Array.size_replicate] at hsize
  obtain ⟨i, hempty⟩ := Table.exists_empty (by rw [hpacked.used, hsize]; omega)
  have hlands := lands_seek e.hash (fun _ => false) hempty
  rwa [hsize] at hlands

theorem Shape.safe {p : Pool} {t : Table} (h : t.Shape) (hhashed : Hashed p t) : Safe p t := by
  have hfits : exceedsLoad (t.live + 1) t.target = false :=
    exceedsLoad_capacityFor _ _ h.capacity (by omega)
  have hroom := hfits
  rw [exceedsLoad, decide_eq_false_iff_not, Nat.not_lt] at hroom
  obtain ⟨hshape, hload, -⟩ := h.reserve
  have hlive := h.capacity_ne_zero_of_live
  refine
    { capacity := h.capacity
      live := h.live
      used := by rw [h.used, countP_isUsed]
      load := h.load
      hashed := fun i e hi => hhashed e (mem_entries.2 ⟨i, hi⟩)
      clear := ?_
      mask := h.capacity.and_pred
      empty := h.exists_empty
      key_lands := ?_
      text_lands := ?_
      growth_stops := hfits
      place_lands := fun moved e rest hentries => h.lands_place hentries hroom
      fresh_lands := ?_
      target_pos := by omega
      reserve_pos := by omega
      live_le_used := h.live_le_used
      capacity_pos := fun hne => Nat.pos_of_ne_zero (hlive hne)
      live_pos := ?_ }
  · intro i e hi
    obtain ⟨hlt, -⟩ := Array.getElem?_eq_some_iff.1 hi
    rw [h.capacity.and_pred (by rw [Table.capacity]; omega)]
    exact h.reached i e hi
  · intro hcapacity key
    obtain ⟨i, hempty⟩ := h.exists_empty hcapacity
    exact lands_seek _ _ hempty
  · intro hcapacity text
    obtain ⟨i, hempty⟩ := h.exists_empty hcapacity
    exact lands_seek _ _ hempty
  · intro key
    obtain ⟨i, hempty⟩ := hshape.exists_empty (by omega)
    exact lands_seek _ _ hempty
  · intro key herase
    apply Nat.pos_of_ne_zero
    intro hzero
    simp [Table.erase, hzero] at herase

/-- Over every run, with any keys, every table is safe. -/
theorem run_safe (actions : List Action) (hsteady : Store.Steady {} [] actions) (i : Nat) :
    Safe (Store.run {} actions).2.pool ((Store.run {} actions).2.tables i) := by
  obtain ⟨used, hsound, -⟩ := Store.sound_empty.run hsteady
  exact (hsound.shape i).safe (hsound.hashed i)

/-- A run with a text and NaN as keys. -/
def textAndNan : List Action :=
  [.intern "a", .set 0 (.ref (.text 0)) .nil .value, .set 0 (.number (0 / 0)) .nil .getter,
    .remove 0 (.ref (.text 0))]

theorem run_safe_textAndNan :
    Store.Steady {} [] textAndNan ∧
      Safe (Store.run {} textAndNan).2.pool ((Store.run {} textAndNan).2.tables 0) := by
  have hheld : (Pool.empty.intern "a").2.Holds (.ref (.text 0)) := by
    rintro i ⟨⟩
    have hnew : Pool.empty.lookup? "a" = none := by simp [Pool.lookup?, Pool.empty]
    exact ⟨_, by rw [Pool.intern_of_new hnew]; rfl⟩
  have hnan : (Pool.empty.intern "a").2.Holds (.number (0 / 0)) := by
    intro i hi
    cases hi
  have hsteady : Store.Steady {} [] textAndNan := by
    simp [textAndNan, Store.Steady, Action.keys, Store.pool_step, Action.onPool, hheld, hnan]
  exact ⟨hsteady, run_safe textAndNan hsteady 0⟩

end Table

end ScriptMachine
