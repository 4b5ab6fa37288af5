import ScriptMachine.Proofs.KeyEquality
import ScriptMachine.Proofs.Table.Slots

/-!
The shape of a table. The counters of a table count its slots, at most three quarters of the slots
are used, and a search from the slot of an entry's hash comes to the entry. Each operation keeps
the shape, and says what it does to the live entries.
-/

namespace ScriptMachine.Table

open ArraySlots

structure Shape (t : Table) : Prop where
  capacity : IsCapacity t.capacity
  live : t.live = t.slots.countP TableSlot.isOccupied
  used : t.used = t.slots.countP TableSlot.isUsed
  load : t.used * 4 ≤ t.capacity * 3
  reached : Reached t.slots

/-- Every entry keeps the hash of its key. -/
def Hashed (p : Pool) (t : Table) : Prop := ∀ e ∈ t.entries, e.hash = p.hashKey e.key

/-- The entry that stores a value under a key. -/
def entryFor (p : Pool) (key value : Value) (kind : EntryKind) : Entry :=
  { key, value, kind, hash := p.hashKey key }

/-- No entry holds the key. -/
def Lacks (p : Pool) (t : Table) (key : Value) (hash : UInt32) : Prop :=
  ∀ e ∈ t.entries, holdsKey p key hash e = false

theorem mem_entries {t : Table} {e : Entry} :
    e ∈ t.entries ↔ ∃ i : Nat, t.slots[i]? = some (.occupied e) := mem_occupants

theorem shape_empty : Shape Table.empty :=
  ⟨Or.inl rfl, rfl, rfl, by decide, by intro i e hi; simp [Table.empty] at hi⟩

theorem isEmpty_slots {t : Table} : t.slots.isEmpty = true ↔ t.capacity = 0 := by
  simp [capacity]

theorem entries_of_isEmpty {t : Table} (h : t.slots.isEmpty = true) : t.entries = [] := by
  simp_all [entries]

theorem hash_of_holdsKey {p : Pool} {key : Value} {hash : UInt32} {e : Entry}
    (h : holdsKey p key hash e = true) : e.hash = hash := by
  simp only [holdsKey, Bool.and_eq_true, beq_iff_eq] at h
  exact h.1

theorem holdsText_iff {p : Pool} (hp : p.WellFormed) (e : Entry) (text : String) :
    holdsText p text (Hash.text text) e = true ↔ p.keyOf e.key = .text text := by
  unfold holdsText
  rcases hkey : e.key with _ | _ | _ | (i | i)
  case ref.text =>
    cases hx : p.arena.get? i with
    | none => simp [Pool.textOf?, Pool.get?, hx, Pool.keyOf_vacant hx]
    | some x =>
      have hhash := hp.hashed i x hx
      simp only [Pool.textOf?, Pool.get?, hx, Pool.keyOf_text hx, Bool.and_eq_true, beq_iff_eq,
        Key.text.injEq]
      constructor
      · exact And.right
      · intro htext
        exact ⟨by rw [hhash, htext], htext⟩
  all_goals simp [Pool.textOf?, Pool.get?, Pool.keyOf]

theorem hash_of_holdsText {p : Pool} {t : Table} (hhashed : Hashed p t) {e : Entry}
    (he : e ∈ t.entries) {text : String} {hash : UInt32} (haccept : holdsText p text hash e = true) :
    e.hash = hash := by
  unfold holdsText at haccept
  cases htext : p.textOf? e.key with
  | none => simp [htext] at haccept
  | some x =>
    simp only [htext, Bool.and_eq_true, beq_iff_eq] at haccept
    rw [hhashed e he, Pool.hashKey, htext]
    exact haccept.1

namespace Shape

variable {t : Table}

theorem live_eq_length (h : t.Shape) : t.live = t.entries.length := by
  rw [h.live]
  exact (length_occupants t.slots).symm

theorem live_le_used (h : t.Shape) : t.live ≤ t.used := by
  rw [h.live, h.used, ← Array.countP_toList, ← Array.countP_toList]
  exact countP_isOccupied_le _

theorem exists_empty (h : t.Shape) (hcapacity : t.capacity ≠ 0) :
    ∃ i : Nat, t.slots[i]? = some .empty := by
  apply Table.exists_empty
  rw [← h.used]
  have hload := h.load
  rw [Table.capacity] at hload hcapacity
  omega

/-- A used slot needs slots. -/
theorem capacity_ne_zero_of_live (h : t.Shape) (hlive : t.live ≠ 0) : t.capacity ≠ 0 := by
  have hle := h.live_le_used
  have hload := h.load
  omega

/-- A search in vain for entries of one hash says that no live entry of the hash is accepted. -/
theorem reject_of_vain (h : t.Shape) {hash : UInt32} {accept : Entry → Bool} {d : Nat}
    (hvain : Vain t.slots accept (hash.toNat % t.slots.size) d) {e : Entry} (he : e ∈ t.entries)
    (hhash : accept e = true → e.hash = hash) : accept e = false := by
  cases haccept : accept e with
  | false => rfl
  | true =>
    obtain ⟨i, hi⟩ := mem_entries.1 he
    have hclear := h.reached i e hi
    rw [hhash haccept] at hclear
    rw [← haccept, hvain.reject_of_clear hclear hi]

theorem rebuild (h : t.Shape) {n : Nat} (hn : IsCapacity n) (hroom : (t.live + 1) * 4 ≤ n * 3) :
    (t.rebuild n).Shape ∧ (t.rebuild n).capacity = n ∧ (t.rebuild n).entries.Perm t.entries := by
  have hlength := h.live_eq_length
  obtain ⟨hpacked, hsize, hperm⟩ :=
    (packed_replicate n).foldl_place t.entries (by rw [Array.size_replicate]; omega)
  rw [← slots_rebuild] at hpacked hsize hperm
  rw [Array.size_replicate] at hsize
  refine ⟨⟨?_, ?_, ?_, ?_, hpacked.reached⟩, hsize, ?_⟩
  · rw [Table.capacity, hsize]
    exact hn
  · rw [hpacked.occupied, Nat.zero_add, ← hlength]
    rfl
  · rw [hpacked.used, Nat.zero_add, ← hlength]
    rfl
  · rw [Table.capacity, hsize]
    show t.live * 4 ≤ n * 3
    omega
  · rwa [occupants_replicate, List.append_nil] at hperm

/-- After making room, one more used slot keeps the load. -/
theorem reserve (h : t.Shape) :
    t.reserve.Shape ∧ (t.reserve.used + 1) * 4 ≤ t.reserve.capacity * 3 ∧
      t.reserve.entries.Perm t.entries := by
  unfold Table.reserve
  split
  · have hfits := exceedsLoad_capacityFor (t.live + 1) (t.live + 2) h.capacity
      (by omega)
    rw [exceedsLoad, decide_eq_false_iff_not, Nat.not_lt] at hfits
    obtain ⟨hshape, hcapacity, hperm⟩ := h.rebuild (h.capacity.capacityFor _ _) hfits
    refine ⟨hshape, ?_, hperm⟩
    rw [hcapacity]
    exact hfits
  · next hfits =>
    rw [exceedsLoad, decide_eq_true_iff, Nat.not_lt] at hfits
    exact ⟨h, hfits, List.Perm.refl _⟩

/-- Filling a slot keeps the shape if the counters follow and the new entry is reached. -/
theorem fill (h : t.Shape) {i used live : Nat} {old x : TableSlot} (hi : t.slots[i]? = some old)
    (hx : x.isUsed = true)
    (hclear : ∀ e, x = .occupied e → Clear t.slots (e.hash.toNat % t.slots.size) i)
    (hused : used + old.isUsed.toNat = t.used + 1)
    (hlive : live + old.isOccupied.toNat = t.live + x.isOccupied.toNat)
    (hload : used * 4 ≤ t.capacity * 3) :
    Shape { slots := t.slots.setIfInBounds i x, used, live } := by
  have hsize : (t.slots.setIfInBounds i x).size = t.capacity := Array.size_setIfInBounds
  have hcountUsed := countP_set hi x TableSlot.isUsed
  have hcountLive := countP_set hi x TableSlot.isOccupied
  rw [hx, ← h.used, Bool.toNat_true] at hcountUsed
  rw [← h.live] at hcountLive
  refine ⟨?_, ?_, ?_, ?_, ?_⟩
  · rw [Table.capacity, hsize]
    exact h.capacity
  · show live = (t.slots.setIfInBounds i x).countP TableSlot.isOccupied
    omega
  · show used = (t.slots.setIfInBounds i x).countP TableSlot.isUsed
    omega
  · rw [Table.capacity, hsize]
    exact hload
  · exact h.reached.set i (by rintro rfl; cases hx) hclear

/-- An entry under a key that the table lacks is stored beside the others. -/
theorem addFresh (h : t.Shape) {p : Pool} {e : Entry} (hlacks : Lacks p t e.key e.hash) :
    (t.addFresh p e).Shape ∧ (t.addFresh p e).entries.Perm (e :: t.entries) := by
  obtain ⟨hshape, hload, hperm⟩ := h.reserve
  obtain ⟨i, hempty⟩ := hshape.exists_empty (by omega)
  rcases seek_cases e.hash (holdsKey p e.key e.hash) hempty with
    ⟨j, e', -, hj, haccept⟩ | ⟨j, d, hseek, -, hclear, hj⟩
  · rw [hlacks e' (hperm.mem_iff.1 (mem_entries.2 ⟨j, hj⟩))] at haccept
    cases haccept
  · have hnew (e' : Entry) (he' : TableSlot.occupied e = .occupied e') :
        Clear t.reserve.slots (e'.hash.toNat % t.reserve.slots.size) j := by
      cases he'
      exact hclear
    -- An empty slot becomes used, a tombstone was used already.
    rcases hj with hj | hj
    · have hadd : t.addFresh p e =
          { slots := t.reserve.slots.setIfInBounds j (.occupied e)
            used := t.reserve.used + 1, live := t.reserve.live + 1 } := by
        simp [Table.addFresh, hseek, hj]
      obtain ⟨rest, hold, hset⟩ := occupants_set hj (.occupied e)
      rw [hadd]
      exact ⟨hshape.fill hj rfl hnew rfl rfl hload, hset.trans ((hold.symm.trans hperm).cons e)⟩
    · have hadd : t.addFresh p e =
          { slots := t.reserve.slots.setIfInBounds j (.occupied e)
            used := t.reserve.used, live := t.reserve.live + 1 } := by
        simp [Table.addFresh, hseek, hj]
      obtain ⟨rest, hold, hset⟩ := occupants_set hj (.occupied e)
      rw [hadd]
      exact ⟨hshape.fill hj rfl hnew rfl rfl hshape.load,
        hset.trans ((hold.symm.trans hperm).cons e)⟩

/-- What a search for a key comes to. -/
theorem seek_key (h : t.Shape) (hcapacity : t.capacity ≠ 0) (p : Pool) (key : Value)
    (hash : UInt32) :
    (∃ i e, seek t.slots hash (holdsKey p key hash) = .hit i e ∧
      t.slots[i]? = some (.occupied e) ∧ holdsKey p key hash e = true) ∨
    (∃ i, seek t.slots hash (holdsKey p key hash) = .vacant i ∧ Lacks p t key hash) := by
  obtain ⟨i, hempty⟩ := h.exists_empty hcapacity
  rcases seek_cases hash (holdsKey p key hash) hempty with
    hhit | ⟨j, d, hseek, hvain, -, -⟩
  · exact Or.inl hhit
  · refine Or.inr ⟨j, hseek, ?_⟩
    intro e he
    apply h.reject_of_vain hvain he
    intro haccept
    exact hash_of_holdsKey haccept

theorem insert_cases (h : t.Shape) (p : Pool) (key value : Value) (kind : EntryKind) :
    (Lacks p t key (p.hashKey key) ∧
      t.insert p key value kind = (true, t.addFresh p (entryFor p key value kind))) ∨
    ∃ i e, t.slots[i]? = some (.occupied e) ∧ holdsKey p key (p.hashKey key) e = true ∧
      t.insert p key value kind = (false, { t with
        slots := t.slots.setIfInBounds i (.occupied (entryFor p key value kind)) }) := by
  by_cases hslots : t.slots.isEmpty = true
  · refine Or.inl ⟨?_, by rw [Table.insert, if_pos hslots]; rfl⟩
    intro e he
    rw [entries_of_isEmpty hslots] at he
    cases he
  · rcases h.seek_key (mt isEmpty_slots.2 hslots) p key (p.hashKey key) with
      ⟨i, e, hseek, hi, haccept⟩ | ⟨i, hseek, hlacks⟩
    · refine Or.inr ⟨i, e, hi, haccept, ?_⟩
      have hhash := hash_of_holdsKey haccept
      simp [Table.insert, hslots, hseek, entryFor, hhash]
    · exact Or.inl ⟨hlacks, by simp [Table.insert, hslots, hseek, entryFor]⟩

/-- A new key is stored beside the others; the entry of a key already there is overwritten. -/
theorem insert (h : t.Shape) (p : Pool) (key value : Value) (kind : EntryKind) :
    (t.insert p key value kind).2.Shape ∧
    ((Lacks p t key (p.hashKey key) ∧ (t.insert p key value kind).1 = true ∧
        (t.insert p key value kind).2.entries.Perm (entryFor p key value kind :: t.entries)) ∨
      ∃ e rest, holdsKey p key (p.hashKey key) e = true ∧ (t.insert p key value kind).1 = false ∧
        t.entries.Perm (e :: rest) ∧
        (t.insert p key value kind).2.entries.Perm (entryFor p key value kind :: rest)) := by
  rcases h.insert_cases p key value kind with ⟨hlacks, hinsert⟩ | ⟨i, e, hi, haccept, hinsert⟩
  · obtain ⟨hshape, hperm⟩ := h.addFresh (e := entryFor p key value kind) hlacks
    rw [hinsert]
    exact ⟨hshape, Or.inl ⟨hlacks, rfl, hperm⟩⟩
  · obtain ⟨rest, hold, hset⟩ := occupants_set hi (.occupied (entryFor p key value kind))
    rw [hinsert]
    refine ⟨h.fill hi rfl ?_ rfl rfl h.load, Or.inr ⟨e, rest, haccept, rfl, hold, hset⟩⟩
    rintro e' ⟨⟩
    rw [entryFor, ← hash_of_holdsKey haccept]
    exact h.reached i e hi

/-- The entry of the key is removed; without one nothing changes. -/
theorem erase (h : t.Shape) (p : Pool) (key : Value) :
    (t.erase p key).2.Shape ∧
    ((Lacks p t key (p.hashKey key) ∧ t.erase p key = (false, t)) ∨
      ∃ e, holdsKey p key (p.hashKey key) e = true ∧ (t.erase p key).1 = true ∧
        t.entries.Perm (e :: (t.erase p key).2.entries)) := by
  by_cases hlive : t.live = 0
  · have herase : t.erase p key = (false, t) := by rw [Table.erase, if_pos hlive]
    rw [herase]
    refine ⟨h, Or.inl ⟨?_, rfl⟩⟩
    intro e he
    rw [h.live_eq_length, List.length_eq_zero_iff] at hlive
    rw [hlive] at he
    cases he
  · rcases h.seek_key (h.capacity_ne_zero_of_live hlive) p key (p.hashKey key) with
      ⟨i, e, hseek, hi, haccept⟩ | ⟨i, hseek, hlacks⟩
    · have herase : t.erase p key = (true,
          { t with slots := t.slots.setIfInBounds i .tombstone, live := t.live - 1 }) := by
        simp [Table.erase, hlive, hseek]
      obtain ⟨rest, hold, hset⟩ := occupants_set hi .tombstone
      rw [herase]
      refine ⟨h.fill hi rfl (by simp) rfl ?_ h.load, Or.inr ⟨e, haccept, rfl, ?_⟩⟩
      · show t.live - 1 + 1 = t.live
        omega
      · exact hold.trans (hset.symm.cons e)
    · have herase : t.erase p key = (false, t) := by simp [Table.erase, hlive, hseek]
      rw [herase]
      exact ⟨h, Or.inl ⟨hlacks, rfl⟩⟩

theorem insertAll (h : t.Shape) (p : Pool) (added : List Entry) : (t.insertAll p added).Shape := by
  induction added generalizing t with
  | nil => exact h
  | cons e added ih => exact ih (h.insert p e.key e.value e.kind).1

/-! What holds of every entry. -/

theorem forall_insert (h : t.Shape) {P : Entry → Prop} (p : Pool) (key value : Value)
    (kind : EntryKind) (hnew : P (entryFor p key value kind)) (hall : ∀ e ∈ t.entries, P e) :
    ∀ e ∈ (t.insert p key value kind).2.entries, P e := by
  intro e he
  rcases (h.insert p key value kind).2 with ⟨-, -, hperm⟩ | ⟨e', rest, -, -, hold, hperm⟩
  · rcases List.mem_cons.1 (hperm.mem_iff.1 he) with rfl | hmem
    · exact hnew
    · exact hall e hmem
  · rcases List.mem_cons.1 (hperm.mem_iff.1 he) with rfl | hmem
    · exact hnew
    · exact hall e (hold.mem_iff.2 (List.mem_cons_of_mem e' hmem))

theorem forall_erase (h : t.Shape) {P : Entry → Prop} (p : Pool) (key : Value)
    (hall : ∀ e ∈ t.entries, P e) : ∀ e ∈ (t.erase p key).2.entries, P e := by
  intro e he
  rcases (h.erase p key).2 with ⟨-, herase⟩ | ⟨e', -, -, hperm⟩
  · rw [herase] at he
    exact hall e he
  · exact hall e (hperm.mem_iff.2 (List.mem_cons_of_mem e' he))

theorem forall_insertAll (h : t.Shape) {P : Entry → Prop} (p : Pool) (added : List Entry)
    (hnew : ∀ e ∈ added, P (entryFor p e.key e.value e.kind)) (hall : ∀ e ∈ t.entries, P e) :
    ∀ e ∈ (t.insertAll p added).entries, P e := by
  induction added generalizing t with
  | nil => exact hall
  | cons e added ih =>
    apply ih (h.insert p e.key e.value e.kind).1
    · exact fun e' he' => hnew e' (List.mem_cons_of_mem e he')
    · exact h.forall_insert p e.key e.value e.kind (hnew e List.mem_cons_self) hall

end Shape

end ScriptMachine.Table
