import ScriptMachine.Proofs.Table.Slots

/-!
The references of a table. Whatever the slots are, an operation brings no reference into a table but
those of the key and the value it stores, and a search gives an entry of the table.
-/

namespace ScriptMachine

theorem Value.mem_refs_iff {v : Value} {r : Ref} : r ∈ v.refs ↔ v = .ref r := by
  cases v <;> simp [refs, ref?, eq_comm]

theorem Value.mem_optional_refs {v? : Option Value} {r : Ref} :
    r ∈ (v?.map Value.refs).getD [] ↔ v? = some (.ref r) := by
  cases v? with
  | none => simp
  | some v => rw [Option.map_some, Option.getD_some, mem_refs_iff, Option.some.injEq]

theorem Value.mem_flatMap_refs {vs : Array Value} {r : Ref} :
    r ∈ vs.toList.flatMap Value.refs ↔ .ref r ∈ vs := by
  simp only [List.mem_flatMap, Array.mem_toList_iff, Value.mem_refs_iff, exists_eq_right]

namespace Table

/-- A reference is a key or a value of a table. -/
def Mentions (t : Table) (r : Ref) : Prop := ∃ e ∈ t.entries, e.key = .ref r ∨ e.value = .ref r

theorem mem_refs_iff {t : Table} {r : Ref} : r ∈ t.refs ↔ t.Mentions r := by
  simp only [refs, Mentions, List.mem_flatMap, List.mem_append, Value.mem_refs_iff]

theorem mem_occupants_set {slots : Array TableSlot} {i : Nat} {x : TableSlot} {e : Entry}
    (he : e ∈ occupants (slots.setIfInBounds i x)) : e ∈ occupants slots ∨ x = .occupied e := by
  obtain ⟨j, hj⟩ := mem_occupants.1 he
  rw [Array.getElem?_setIfInBounds] at hj
  by_cases hij : i = j
  · rw [if_pos hij] at hj
    split at hj
    · exact Or.inr (Option.some.inj hj)
    · cases hj
  · rw [if_neg hij] at hj
    exact Or.inl (mem_occupants.2 ⟨j, hj⟩)

theorem mem_occupants_place {slots : Array TableSlot} {e e' : Entry}
    (he : e' ∈ occupants (place slots e)) : e' ∈ occupants slots ∨ e' = e := by
  unfold place at he
  split at he
  · rcases mem_occupants_set he with hold | hnew
    · exact Or.inl hold
    · exact Or.inr (TableSlot.occupied.inj hnew).symm
  · exact Or.inl he

theorem mem_occupants_foldl_place {slots : Array TableSlot} {es : List Entry} {e : Entry}
    (he : e ∈ occupants (es.foldl place slots)) : e ∈ occupants slots ∨ e ∈ es := by
  induction es generalizing slots with
  | nil => exact Or.inl he
  | cons e' es ih =>
    rcases ih he with hplaced | hmem
    · rcases mem_occupants_place hplaced with hold | rfl
      · exact Or.inl hold
      · exact Or.inr List.mem_cons_self
    · exact Or.inr (List.mem_cons_of_mem e' hmem)

theorem mem_entries_reserve {t : Table} {e : Entry} (he : e ∈ t.reserve.entries) :
    e ∈ t.entries := by
  unfold reserve at he
  split at he
  · have hslots : e ∈ occupants (t.rebuild _).slots := he
    rw [slots_rebuild] at hslots
    rcases mem_occupants_foldl_place hslots with hold | hmem
    · rw [occupants_replicate] at hold
      cases hold
    · exact hmem
  · exact he

theorem mem_entries_addFresh {t : Table} {p : Pool} {e e' : Entry}
    (he : e' ∈ (t.addFresh p e).entries) : e' ∈ t.entries ∨ e' = e := by
  have hset {i : Nat} (hmem : e' ∈ occupants (t.reserve.slots.setIfInBounds i (.occupied e))) :
      e' ∈ t.entries ∨ e' = e := by
    rcases mem_occupants_set hmem with hold | hnew
    · exact Or.inl (mem_entries_reserve hold)
    · exact Or.inr (TableSlot.occupied.inj hnew).symm
  unfold addFresh at he
  dsimp only at he
  split at he
  · exact hset he
  · exact hset he

theorem mem_entries_insert {t : Table} {p : Pool} {key value : Value} {kind : EntryKind} {e : Entry}
    (he : e ∈ (t.insert p key value kind).2.entries) :
    e ∈ t.entries ∨ e.key = key ∧ e.value = value := by
  have hadd (hmem : e ∈ (t.addFresh p { key, value, kind, hash := p.hashKey key }).entries) :
      e ∈ t.entries ∨ e.key = key ∧ e.value = value := by
    rcases mem_entries_addFresh hmem with hold | rfl
    · exact Or.inl hold
    · exact Or.inr ⟨rfl, rfl⟩
  unfold insert at he
  dsimp only at he
  split at he
  · exact hadd he
  · split at he
    · rcases mem_occupants_set he with hold | hnew
      · exact Or.inl hold
      · obtain rfl := TableSlot.occupied.inj hnew
        exact Or.inr ⟨rfl, rfl⟩
    · exact hadd he

/-! The same in terms of references that are known. -/

variable {K : Ref → Prop} {t : Table}

theorem forall_refs {t : Table} :
    (∀ r ∈ t.refs, K r) ↔
      ∀ e ∈ t.entries, (∀ r ∈ e.key.refs, K r) ∧ ∀ r ∈ e.value.refs, K r := by
  simp only [mem_refs_iff, Mentions, Value.mem_refs_iff]
  constructor
  · intro hall e he
    exact ⟨fun r hr => hall r ⟨e, he, Or.inl hr⟩, fun r hr => hall r ⟨e, he, Or.inr hr⟩⟩
  · rintro hall r ⟨e, he, hr | hr⟩
    · exact (hall e he).1 r hr
    · exact (hall e he).2 r hr

theorem forall_refs_empty : ∀ r ∈ Table.empty.refs, K r := by
  intro r hr
  simp [Table.empty, refs, entries] at hr

theorem forall_refs_insert (p : Pool) {key value : Value} (kind : EntryKind)
    (ht : ∀ r ∈ t.refs, K r) (hkey : ∀ r ∈ key.refs, K r) (hvalue : ∀ r ∈ value.refs, K r) :
    ∀ r ∈ (t.insert p key value kind).2.refs, K r := by
  rw [forall_refs] at ht ⊢
  intro e he
  rcases mem_entries_insert he with hold | ⟨rfl, rfl⟩
  · exact ht e hold
  · exact ⟨hkey, hvalue⟩

theorem forall_refs_insertAll (p : Pool) {added : List Entry} (ht : ∀ r ∈ t.refs, K r)
    (hadded : ∀ e ∈ added, (∀ r ∈ e.key.refs, K r) ∧ ∀ r ∈ e.value.refs, K r) :
    ∀ r ∈ (t.insertAll p added).refs, K r := by
  induction added generalizing t with
  | nil => exact ht
  | cons e added ih =>
    obtain ⟨hkey, hvalue⟩ := hadded e List.mem_cons_self
    apply ih (forall_refs_insert p e.kind ht hkey hvalue)
    exact fun e' he' => hadded e' (List.mem_cons_of_mem e he')

theorem forall_refs_addAll (p : Pool) {other : Table} (ht : ∀ r ∈ t.refs, K r)
    (hother : ∀ r ∈ other.refs, K r) : ∀ r ∈ (t.addAll p other).refs, K r :=
  forall_refs_insertAll p ht (forall_refs.1 hother)

/-! Searches. -/

theorem slot_of_probe {slots : Array TableSlot} {accept : Entry → Bool} {steps i j : Nat}
    {grave : Option Nat} {e : Entry} (h : probe slots accept steps i grave = .hit j e) :
    slots[j]? = some (.occupied e) := by
  induction steps generalizing i grave with
  | zero => cases h
  | succ steps ih =>
    unfold probe at h
    split at h
    · next e' hslot =>
      split at h
      · obtain ⟨rfl, rfl⟩ := Landing.hit.inj h
        exact hslot
      · exact ih h
    · exact ih h
    · cases h

theorem mem_entries_seek {hash : UInt32} {accept : Entry → Bool} {e : Entry}
    (h : entryAt? (seek t.slots hash accept) = some e) : e ∈ t.entries := by
  cases hseek : seek t.slots hash accept with
  | hit i e' =>
    rw [hseek] at h
    obtain rfl : e' = e := Option.some.inj h
    exact mem_occupants.2 ⟨i, slot_of_probe hseek⟩
  | vacant i =>
    rw [hseek] at h
    cases h

theorem mem_entries_of_found {p : Pool} {key : Value} {e : Entry}
    (h : t.entry? p key = some e) : e ∈ t.entries := by
  unfold entry? at h
  split at h
  · cases h
  · exact mem_entries_seek h

theorem mem_entries_of_text {p : Pool} {text : String} {e : Entry}
    (h : t.entryOfText? p text = some e) : e ∈ t.entries := by
  unfold entryOfText? at h
  split at h
  · cases h
  · exact mem_entries_seek h

theorem known_of_get? {p : Pool} {key v : Value} (ht : ∀ r ∈ t.refs, K r)
    (h : t.get? p key = some v) : ∀ r ∈ v.refs, K r := by
  obtain ⟨e, he, rfl⟩ := Option.map_eq_some_iff.1 h
  exact (forall_refs.1 ht e (mem_entries_of_found he)).2

end Table

end ScriptMachine
