import Mathlib.Data.Finmap
import ScriptMachine.Proofs.Table.Runs

/-!
The bindings of a table. The classes of the keys are the keys of a finite map that holds one binding
of each, and the live entries of the table are its bindings. Setting, removing and searching do to
the entries what inserting, erasing and looking up do to the map.
-/

namespace ScriptMachine.Table

/-- An entry without its hash. -/
structure Binding where
  key : Value
  value : Value
  kind : EntryKind

abbrev Bindings := Finmap fun _ : Key => Binding

def binding (e : Entry) : Binding := ⟨e.key, e.value, e.kind⟩

/-- An entry under the class of its key. -/
def classed (p : Pool) (e : Entry) : Sigma fun _ : Key => Binding := ⟨p.keyOf e.key, binding e⟩

/-- The live entries of a table are the bindings of a map. -/
def Represents (p : Pool) (t : Table) (m : Bindings) : Prop :=
  Multiset.ofList (t.entries.map (classed p)) = m.entries

/-! A step of a finite map. -/

theorem exists_insert {k : Key} {b : Binding} {rest : Multiset (Sigma fun _ : Key => Binding)}
    {m : Bindings} (h : m.entries = ⟨k, b⟩ ::ₘ rest) :
    ∃ m' : Bindings, m'.entries = rest ∧ k ∉ m' ∧ m = m'.insert k b := by
  have hnodup : (Multiset.keys (⟨k, b⟩ ::ₘ rest)).Nodup := by
    rw [← h]
    exact Multiset.nodup_keys.2 m.nodupKeys
  rw [Multiset.keys_cons, Multiset.nodup_cons] at hnodup
  obtain ⟨hnotMem, hrest⟩ := hnodup
  let m' : Bindings := ⟨rest, Multiset.nodup_keys.1 hrest⟩
  have hk : k ∉ m' := hnotMem
  refine ⟨m', rfl, hk, ?_⟩
  apply Finmap.ext
  rw [Finmap.entries_insert_of_notMem hk, h]

theorem erase_insert {k : Key} {b : Binding} {m : Bindings} (hk : k ∉ m) :
    (m.insert k b).erase k = m := by
  apply Finmap.ext_lookup
  intro x
  by_cases hx : x = k
  · subst hx
    rw [Finmap.lookup_erase, Finmap.lookup_eq_none.2 hk]
  · rw [Finmap.lookup_erase_ne hx, Finmap.lookup_insert_of_ne _ hx]

/-- Inserting the bindings of one map into another is their union. -/
theorem foldl_insert_eq_union (p : Pool) (es : List Entry) {o m : Bindings}
    (h : Multiset.ofList (es.map (classed p)) = o.entries) :
    es.foldl (fun m e => m.insert (p.keyOf e.key) (binding e)) m = o ∪ m := by
  induction es generalizing o m with
  | nil =>
    have ho : o = ∅ := Finmap.ext h.symm
    rw [ho, Finmap.empty_union, List.foldl_nil]
  | cons e es ih =>
    have hcons : o.entries = classed p e ::ₘ Multiset.ofList (es.map (classed p)) := by
      rw [← h, List.map_cons, Multiset.cons_coe]
    obtain ⟨o', ho', hk, rfl⟩ := exists_insert hcons
    rw [List.foldl_cons, ih ho'.symm]
    apply Finmap.ext_lookup
    intro x
    by_cases hx : x = p.keyOf e.key
    · subst hx
      rw [Finmap.lookup_union_right hk, Finmap.lookup_insert,
        Finmap.lookup_union_left (Finmap.mem_insert.2 (Or.inl rfl)), Finmap.lookup_insert]
    · rw [← Finmap.insert_union, Finmap.lookup_insert_of_ne _ hx]
      by_cases hmem : x ∈ o'
      · rw [Finmap.lookup_union_left hmem, Finmap.lookup_union_left hmem]
      · rw [Finmap.lookup_union_right hmem, Finmap.lookup_union_right hmem,
          Finmap.lookup_insert_of_ne _ hx]

/-! A step of a table. -/

/-- Among keys other than NaN, an entry holds a key if it has its class. -/
theorem holdsKey_iff {p : Pool} (hp : p.WellFormed) {e : Entry} (hhash : e.hash = p.hashKey e.key)
    (hnan : e.key.isNaN = false) (key : Value) :
    holdsKey p key (p.hashKey key) e = true ↔ p.keyOf e.key = p.keyOf key := by
  rw [← hp.sameKey_iff key hnan, holdsKey, Bool.and_eq_true, beq_iff_eq]
  constructor
  · exact And.right
  · intro hsame
    exact ⟨hhash.trans (p.hashKey_eq_of_sameKey hsame), hsame⟩

/-- A table over which every search finds what it should: its shape, its hashes, no NaN. -/
structure Exact (p : Pool) (t : Table) : Prop where
  pool : p.WellFormed
  shape : t.Shape
  hashed : Hashed p t
  nonNaN : ∀ e ∈ t.entries, e.key.isNaN = false

namespace Exact

variable {p : Pool} {t : Table} {m : Bindings}

theorem holdsKey_iff (h : Exact p t) {e : Entry} (he : e ∈ t.entries) (key : Value) :
    holdsKey p key (p.hashKey key) e = true ↔ p.keyOf e.key = p.keyOf key :=
  Table.holdsKey_iff h.pool (h.hashed e he) (h.nonNaN e he) key

theorem mem_of_entry (hm : Represents p t m) {e : Entry} (he : e ∈ t.entries) :
    m.lookup (p.keyOf e.key) = some (binding e) := by
  apply Finmap.lookup_eq_some_iff.2
  rw [← hm, Multiset.mem_coe]
  exact List.mem_map_of_mem he

theorem exists_entry (hm : Represents p t m) {k : Key} (hk : k ∈ m) :
    ∃ e ∈ t.entries, p.keyOf e.key = k := by
  obtain ⟨b, hb⟩ := Finmap.mem_iff.1 hk
  have hentry := Finmap.lookup_eq_some_iff.1 hb
  rw [← hm, Multiset.mem_coe, List.mem_map] at hentry
  obtain ⟨e, he, hclass⟩ := hentry
  exact ⟨e, he, congrArg Sigma.fst hclass⟩

theorem notMem_of_lacks (h : Exact p t) (hm : Represents p t m) {key : Value}
    (hlacks : Lacks p t key (p.hashKey key)) : p.keyOf key ∉ m := by
  intro hmem
  obtain ⟨e, he, hkey⟩ := exists_entry hm hmem
  have haccept := (h.holdsKey_iff he key).2 hkey
  rw [hlacks e he] at haccept
  cases haccept

theorem entries_cons (hm : Represents p t m) {e : Entry} {rest : List Entry}
    (hperm : t.entries.Perm (e :: rest)) :
    ∃ m' : Bindings, m'.entries = Multiset.ofList (rest.map (classed p)) ∧ p.keyOf e.key ∉ m' ∧
      m = m'.insert (p.keyOf e.key) (binding e) := by
  apply exists_insert
  rw [← hm, Multiset.coe_eq_coe.2 (hperm.map (classed p)), List.map_cons, ← Multiset.cons_coe]
  rfl

theorem exact_insert (h : Exact p t) {key : Value} (hkey : key.isNaN = false) (value : Value)
    (kind : EntryKind) : Exact p (t.insert p key value kind).2 where
  pool := h.pool
  shape := (h.shape.insert p key value kind).1
  hashed := h.shape.forall_insert p key value kind rfl h.hashed
  nonNaN := h.shape.forall_insert p key value kind hkey h.nonNaN

/-- A set key is new exactly if the map lacks it, and the map takes its binding. -/
theorem represents_insert (h : Exact p t) (hm : Represents p t m) (key value : Value)
    (kind : EntryKind) :
    (t.insert p key value kind).1 = decide (p.keyOf key ∉ m) ∧
      Represents p (t.insert p key value kind).2 (m.insert (p.keyOf key) ⟨key, value, kind⟩) := by
  rcases (h.shape.insert p key value kind).2 with
    ⟨hlacks, hfresh, hperm⟩ | ⟨e, rest, haccept, hfresh, hold, hnew⟩
  · have hk := h.notMem_of_lacks hm hlacks
    refine ⟨by simpa [hfresh] using hk, ?_⟩
    rw [Represents, Finmap.entries_insert_of_notMem hk, ← hm,
      Multiset.coe_eq_coe.2 (hperm.map (classed p)), List.map_cons, ← Multiset.cons_coe]
    rfl
  · have he : e ∈ t.entries := hold.mem_iff.2 List.mem_cons_self
    have hkey := (h.holdsKey_iff he key).1 haccept
    obtain ⟨m', hrest, hk, rfl⟩ := entries_cons hm hold
    rw [hkey] at hk ⊢
    refine ⟨by simp [hfresh], ?_⟩
    rw [Represents, Finmap.insert_insert, Finmap.entries_insert_of_notMem hk, hrest,
      Multiset.coe_eq_coe.2 (hnew.map (classed p)), List.map_cons, ← Multiset.cons_coe]
    rfl

/-- A removed key was there exactly if the map has it, and the map loses it. -/
theorem represents_erase (h : Exact p t) (hm : Represents p t m) (key : Value) :
    (t.erase p key).1 = decide (p.keyOf key ∈ m) ∧
      Represents p (t.erase p key).2 (m.erase (p.keyOf key)) := by
  rcases (h.shape.erase p key).2 with ⟨hlacks, herase⟩ | ⟨e, haccept, hthere, hperm⟩
  · have hk := h.notMem_of_lacks hm hlacks
    have hsame : m.erase (p.keyOf key) = m := by
      apply Finmap.ext_lookup
      intro x
      by_cases hx : x = p.keyOf key
      · subst hx
        rw [Finmap.lookup_erase, Finmap.lookup_eq_none.2 hk]
      · rw [Finmap.lookup_erase_ne hx]
    rw [herase, hsame]
    exact ⟨by simpa using hk, hm⟩
  · have he : e ∈ t.entries := hperm.mem_iff.2 List.mem_cons_self
    have hkey := (h.holdsKey_iff he key).1 haccept
    obtain ⟨m', hrest, hk, rfl⟩ := entries_cons hm hperm
    rw [hkey] at hk ⊢
    refine ⟨by simp [hthere], ?_⟩
    rw [erase_insert hk]
    exact hrest.symm

theorem represents_insertAll (h : Exact p t) (hm : Represents p t m) {added : List Entry}
    (hadded : ∀ e ∈ added, e.key.isNaN = false) :
    Exact p (t.insertAll p added) ∧ Represents p (t.insertAll p added)
      (added.foldl (fun m e => m.insert (p.keyOf e.key) (binding e)) m) := by
  induction added generalizing t m with
  | nil => exact ⟨h, hm⟩
  | cons e added ih =>
    have hstep := h.exact_insert (hadded e List.mem_cons_self) e.value e.kind
    have hmap := (h.represents_insert hm e.key e.value e.kind).2
    exact ih hstep hmap fun e' he' => hadded e' (List.mem_cons_of_mem e he')

/-- A search for the entries of one class finds the binding of the class. -/
theorem binding_seek (h : Exact p t) (hm : Represents p t m) (hcapacity : t.capacity ≠ 0) {k : Key}
    {hash : UInt32} {accept : Entry → Bool}
    (haccept : ∀ e ∈ t.entries, accept e = true ↔ p.keyOf e.key = k)
    (hhash : ∀ e ∈ t.entries, accept e = true → e.hash = hash) :
    (entryAt? (seek t.slots hash accept)).map binding = m.lookup k := by
  obtain ⟨i, hempty⟩ := h.shape.exists_empty hcapacity
  rcases seek_cases hash accept hempty with ⟨j, e, hseek, hj, hhit⟩ | ⟨j, d, hseek, hvain, -, -⟩
  · have he : e ∈ t.entries := mem_entries.2 ⟨j, hj⟩
    rw [hseek, ← (haccept e he).1 hhit, mem_of_entry hm he]
    rfl
  · have hk : k ∉ m := by
      intro hmem
      obtain ⟨e, he, hkey⟩ := exists_entry hm hmem
      have hreject := h.shape.reject_of_vain hvain he (hhash e he)
      rw [(haccept e he).2 hkey] at hreject
      cases hreject
    rw [hseek, Finmap.lookup_eq_none.2 hk]
    rfl

theorem lookup_of_isEmpty (hm : Represents p t m) (hslots : t.slots.isEmpty = true) (k : Key) :
    m.lookup k = none := by
  have hempty : m = ∅ := by
    apply Finmap.ext
    rw [← hm, entries_of_isEmpty hslots]
    rfl
  rw [hempty, Finmap.lookup_empty]

theorem binding_entry? (h : Exact p t) (hm : Represents p t m) (key : Value) :
    (t.entry? p key).map binding = m.lookup (p.keyOf key) := by
  unfold Table.entry?
  split
  · next hslots => rw [lookup_of_isEmpty hm hslots, Option.map_none]
  · next hslots =>
    apply h.binding_seek hm (mt isEmpty_slots.2 hslots)
    · exact fun e he => h.holdsKey_iff he key
    · exact fun e _ => hash_of_holdsKey

theorem binding_entryOfText? (h : Exact p t) (hm : Represents p t m) (text : String) :
    (t.entryOfText? p text).map binding = m.lookup (.text text) := by
  unfold Table.entryOfText?
  split
  · next hslots => rw [lookup_of_isEmpty hm hslots, Option.map_none]
  · next hslots =>
    apply h.binding_seek hm (mt isEmpty_slots.2 hslots)
    · exact fun e _ => holdsText_iff h.pool e text
    · exact fun e he => hash_of_holdsText h.hashed he

end Exact

end ScriptMachine.Table
