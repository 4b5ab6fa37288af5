import Mathlib.Data.List.Induction
import ScriptMachine.Machine.Member
import ScriptMachine.Proofs.Table.Lookups

/-!
Dicts in the order of insertion. A dict keeps its keys in a list beside the table. Whatever was
stored into it, the list has each key once, where it came first, and the table has for each of them
what was stored last. The key in the table need not be the one in the list: a store replaces it by
an equal one. NaN is no such key; it differs from itself and would come again and again.
-/

namespace ScriptMachine

/-! Lists without repetitions. -/

namespace Distinct

variable {α : Type} {r : α → α → Bool} {l seen : List α} {a b : α}

theorem loop_concat (r : α → α → Bool) (l seen : List α) (a : α) :
    List.eraseDupsBy.loop r (l ++ [a]) seen =
      if (List.eraseDupsBy.loop r l seen).any (r a) = true then List.eraseDupsBy.loop r l seen
      else List.eraseDupsBy.loop r l seen ++ [a] := by
  induction l generalizing seen with
  | nil =>
    rw [List.nil_append, List.eraseDupsBy.loop, List.eraseDupsBy.loop, List.any_reverse]
    cases seen.any (r a) with
    | true => rfl
    | false =>
      rw [if_neg Bool.false_ne_true]
      exact List.reverse_cons
  | cons b l ih =>
    rw [List.cons_append, List.eraseDupsBy.loop, List.eraseDupsBy.loop]
    cases seen.any (r b) with
    | true => exact ih seen
    | false => exact ih (b :: seen)

/-- The last element is left out if it is one of those before it. -/
theorem concat (r : α → α → Bool) (l : List α) (a : α) :
    (l ++ [a]).eraseDupsBy r =
      if (l.eraseDupsBy r).any (r a) = true then l.eraseDupsBy r else l.eraseDupsBy r ++ [a] :=
  loop_concat r l [] a

theorem subset : ∀ a ∈ l.eraseDupsBy r, a ∈ l := by
  induction l using List.reverseRecOn with
  | nil => exact fun a ha => ha
  | append_singleton l b ih =>
    intro a ha
    rw [concat] at ha
    split at ha
    · exact List.mem_append_left _ (ih a ha)
    · rcases List.mem_append.1 ha with hold | hnew
      · exact List.mem_append_left _ (ih a hold)
      · exact List.mem_append_right _ hnew

/-- An element that is itself is one of those that are left. -/
theorem exists_mem (ha : a ∈ l) (hself : r a a = true) : ∃ b ∈ l.eraseDupsBy r, r a b = true := by
  induction l using List.reverseRecOn with
  | nil => cases ha
  | append_singleton l b ih =>
    rw [concat]
    rcases List.mem_append.1 ha with hold | hnew
    · obtain ⟨c, hc, hsame⟩ := ih hold
      split
      · exact ⟨c, hc, hsame⟩
      · exact ⟨c, List.mem_append_left _ hc, hsame⟩
    · obtain rfl := List.mem_singleton.1 hnew
      split
      · next hany => exact List.any_eq_true.1 hany
      · exact ⟨a, List.mem_append_right _ List.mem_cons_self, hself⟩

theorem pairwise : (l.eraseDupsBy r).Pairwise fun a b => r b a = false := by
  induction l using List.reverseRecOn with
  | nil => exact List.Pairwise.nil
  | append_singleton l b ih =>
    rw [concat]
    split
    · exact ih
    · next hany =>
      refine List.pairwise_append.2 ⟨ih, List.pairwise_singleton _ b, fun a ha c hc => ?_⟩
      obtain rfl := List.mem_singleton.1 hc
      rw [Bool.eq_false_iff]
      exact fun hsame => hany (List.any_eq_true.2 ⟨a, ha, hsame⟩)

theorem congr {s : α → α → Bool} (hrs : ∀ a ∈ l, ∀ b ∈ l, s a b = r a b) :
    l.eraseDupsBy s = l.eraseDupsBy r := by
  induction l using List.reverseRecOn with
  | nil => rfl
  | append_singleton l b ih =>
    have hall := ih fun a ha c hc => hrs a (List.mem_append_left _ ha) c (List.mem_append_left _ hc)
    have hany : (l.eraseDupsBy r).any (s b) = (l.eraseDupsBy r).any (r b) := by
      rw [Bool.eq_iff_iff, List.any_eq_true, List.any_eq_true]
      refine exists_congr fun a => and_congr_right fun ha => ?_
      rw [hrs b (List.mem_append_right _ List.mem_cons_self) a (List.mem_append_left _ (subset a ha))]
    rw [concat, concat, hall, hany]

end Distinct

/-- The table has one entry more if the key is new. -/
theorem Table.Shape.live_insert {t : Table} (h : t.Shape) (p : Pool) (key value : Value)
    (kind : EntryKind) : (t.insert p key value kind).2.live =
      t.live + if (t.insert p key value kind).1 = true then 1 else 0 := by
  obtain ⟨hshape, hcases⟩ := h.insert p key value kind
  rw [hshape.live_eq_length, h.live_eq_length]
  rcases hcases with ⟨-, hnew, hperm⟩ | ⟨e, rest, -, hnew, hold, hperm⟩
  · rw [hnew, if_pos rfl, hperm.length_eq, List.length_cons]
  · rw [hnew, if_neg Bool.false_ne_true, hperm.length_eq, hold.length_eq]
    rfl

/-- A text is in one slot only. -/
theorem Pool.WellFormed.eq_of_sameKey {p : Pool} (hp : p.WellFormed) {a b : Value}
    (htext : a.isText = true) (hsame : p.sameKey a b = true) : a = b := by
  cases a with
  | ref r =>
    cases b with
    | ref s =>
      rcases (p.sameKey_ref_iff r s).1 hsame with heq | ⟨x, y, hx, hy, -, hcontents⟩
      · rw [heq]
      · cases r with
        | object i => cases hx
        | text i =>
          cases s with
          | object j => cases hy
          | text j => rw [hp.slot_unique hx hy hcontents]
    | _ => cases hsame
  | _ => cases htext

namespace Dict

variable {p q : Pool} {stores : List (Value × Value)} {d : Dict} {key value name v : Value}

/-- The keys of stores in the order in which they came first. -/
def firstKeys (p : Pool) (stores : List (Value × Value)) : List Value :=
  (stores.map Prod.fst).eraseDupsBy p.sameKey

/-- What was stored last under a key. -/
def latest? (p : Pool) (stores : List (Value × Value)) (name : Value) : Option Value :=
  (stores.reverse.find? fun s => p.sameKey s.1 name).map Prod.snd

theorem firstKeys_concat (p : Pool) (stores : List (Value × Value)) (key value : Value) :
    firstKeys p (stores ++ [(key, value)]) =
      if (firstKeys p stores).any (p.sameKey key) = true then firstKeys p stores
      else firstKeys p stores ++ [key] := by
  unfold firstKeys
  rw [List.map_append]
  exact Distinct.concat p.sameKey _ key

theorem latest?_concat (p : Pool) (stores : List (Value × Value)) (key value name : Value) :
    latest? p (stores ++ [(key, value)]) name =
      if p.sameKey key name = true then some value else latest? p stores name := by
  unfold latest?
  rw [List.reverse_append, List.reverse_singleton, List.singleton_append, List.find?_cons]
  cases p.sameKey key name <;> rfl

theorem exists_store (h : latest? p stores name = some v) :
    ∃ s ∈ stores, p.sameKey s.1 name = true := by
  obtain ⟨s, hs, -⟩ := Option.map_eq_some_iff.1 h
  have hsame := List.find?_some (p := fun s : Value × Value => p.sameKey s.1 name) hs
  exact ⟨s, List.mem_reverse.1 (List.mem_of_find?_eq_some hs), hsame⟩

/-- The same keys show the same value. -/
theorem latest?_congr (hp : p.WellFormed) {other : Value} (hsame : p.sameKey name other = true) :
    latest? p stores name = latest? p stores other := by
  unfold latest?
  congr 2
  funext s
  rw [Bool.eq_iff_iff]
  exact ⟨fun h => hp.sameKey_trans h hsame, fun h => hp.sameKey_trans h (hp.sameKey_symm hsame)⟩

theorem latest?_overPool (hsame : ∀ s ∈ stores, q.sameKey s.1 name = p.sameKey s.1 name) :
    latest? q stores name = latest? p stores name := by
  induction stores using List.reverseRecOn with
  | nil => rfl
  | append_singleton stores s ih =>
    rw [latest?_concat, latest?_concat, hsame s (List.mem_append_right _ List.mem_cons_self),
      ih fun t ht => hsame t (List.mem_append_left _ ht)]

theorem table_insert (d : Dict) (p : Pool) (key value : Value) :
    (d.insert p key value).table = d.table.set p key value := by
  unfold Dict.insert Table.set
  split
  · next hinsert => rw [hinsert]
  · next hinsert => rw [hinsert]

theorem keys_insert (d : Dict) (p : Pool) (key value : Value) :
    (d.insert p key value).keys =
      if (d.table.insert p key value).1 = true then d.keys.push key else d.keys := by
  unfold Dict.insert
  split
  · next hinsert =>
    rw [hinsert]
    rfl
  · next hinsert =>
    rw [hinsert]
    rfl

theorem mem_keys_insert (hkey : name ∈ d.keys) : name ∈ (d.insert p key value).keys := by
  rw [keys_insert]
  split
  · exact Array.mem_push_of_mem key hkey
  · exact hkey

/-- A dict is what some stores made of it. -/
structure MadeBy (p : Pool) (stores : List (Value × Value)) (d : Dict) : Prop where
  table : d.table.InOrder p
  keys : d.keys.toList = firstKeys p stores
  size : d.keys.size = d.table.live
  numbers : ∀ s ∈ stores, s.1.isNaN = false
  /-- A text that was stored under again stood in the list already, in the same slot. -/
  texts : ∀ s ∈ stores, s.1.isText = true → s.1 ∈ d.keys
  stored : ∀ s ∈ stores, ∃ e ∈ d.table.entries, p.sameKey e.key s.1 = true
  latest : ∀ e ∈ d.table.entries, latest? p stores e.key = some e.value

theorem madeBy_empty (p : Pool) : MadeBy p [] {} where
  table := Table.inOrder_empty
  keys := rfl
  size := rfl
  numbers := nofun
  texts := nofun
  stored := nofun
  latest _ he := absurd he List.not_mem_nil

namespace MadeBy

theorem mem_keys (h : MadeBy p stores d) : key ∈ d.keys ↔ key ∈ firstKeys p stores := by
  rw [← h.keys, Array.mem_toList_iff]

/-- A key of the list was stored under. -/
theorem exists_stored (h : MadeBy p stores d) (hkey : key ∈ d.keys) : ∃ s ∈ stores, s.1 = key :=
  List.mem_map.1 (Distinct.subset key (h.mem_keys.1 hkey))

/-- The key of a store is the same as one of the list. -/
theorem exists_key (h : MadeBy p stores d) (hp : p.WellFormed) {s : Value × Value}
    (hs : s ∈ stores) : ∃ k ∈ d.keys, p.sameKey s.1 k = true := by
  have hself : p.sameKey s.1 s.1 = true := (hp.sameKey_iff s.1 (h.numbers s hs)).2 rfl
  obtain ⟨k, hk, hsame⟩ := Distinct.exists_mem (List.mem_map_of_mem (f := Prod.fst) hs) hself
  exact ⟨k, h.mem_keys.2 hk, hsame⟩

/-- A key of the table is the same as one of the list, and the other way round. -/
theorem any_keys (h : MadeBy p stores d) (hp : p.WellFormed) :
    (firstKeys p stores).any (p.sameKey key) = true ↔
      ∃ e ∈ d.table.entries, p.sameKey e.key key = true := by
  rw [List.any_eq_true]
  constructor
  · rintro ⟨k, hk, hsame⟩
    obtain ⟨s, hs, rfl⟩ := h.exists_stored (h.mem_keys.2 hk)
    obtain ⟨e, he, hstored⟩ := h.stored s hs
    exact ⟨e, he, hp.sameKey_trans hstored (hp.sameKey_symm hsame)⟩
  · rintro ⟨e, he, hsame⟩
    obtain ⟨s, hs, hstored⟩ := exists_store (h.latest e he)
    obtain ⟨k, hk, hlisted⟩ := h.exists_key hp hs
    have hkey := hp.sameKey_trans (hp.sameKey_symm hsame) (hp.sameKey_symm hstored)
    exact ⟨k, h.mem_keys.1 hk, hp.sameKey_trans hkey hlisted⟩

/-! Stores. -/

/-- A key is new to the list exactly if it is new to the table. -/
theorem insert_fst (h : MadeBy p stores d) (hp : p.WellFormed) :
    (d.table.insert p key value).1 = true ↔
      ¬ (firstKeys p stores).any (p.sameKey key) = true := by
  rw [h.table.insert_fst hp, h.any_keys hp]
  constructor
  · rintro hnew ⟨e, he, hsame⟩
    rw [hnew e he] at hsame
    cases hsame
  · intro hnew e he
    exact Bool.eq_false_iff.2 fun hsame => hnew ⟨e, he, hsame⟩

theorem mem_entries_insert (h : MadeBy p stores d) (hp : p.WellFormed) {e : Entry} :
    e ∈ (d.insert p key value).table.entries ↔
      e = Table.entryFor p key value .value ∨
        e ∈ d.table.entries ∧ p.sameKey e.key key = false := by
  rw [table_insert]
  exact h.table.mem_insert hp

theorem toList_keys_insert (h : MadeBy p stores d) (hp : p.WellFormed) (key value : Value) :
    (d.insert p key value).keys.toList = firstKeys p (stores ++ [(key, value)]) := by
  rw [keys_insert, firstKeys_concat]
  by_cases hnew : (d.table.insert p key value).1 = true
  · rw [if_pos hnew, if_neg ((h.insert_fst hp).1 hnew), Array.toList_push, h.keys]
  · rw [if_neg hnew, if_pos (not_not.1 (mt (h.insert_fst hp).2 hnew)), h.keys]

theorem size_keys_insert (h : MadeBy p stores d) (key value : Value) :
    (d.insert p key value).keys.size = (d.insert p key value).table.live := by
  rw [keys_insert, table_insert, Table.set, h.table.shape.live_insert]
  by_cases hnew : (d.table.insert p key value).1 = true
  · rw [if_pos hnew, if_pos hnew, Array.size_push, h.size]
  · rw [if_neg hnew, if_neg hnew, h.size, Nat.add_zero]

/-- A text that is in the list already is the very one that was stored under. -/
theorem text_mem_keys_insert (h : MadeBy p stores d) (hp : p.WellFormed) (htext : key.isText = true)
    (value : Value) : key ∈ (d.insert p key value).keys := by
  by_cases hnew : (d.table.insert p key value).1 = true
  · rw [keys_insert, if_pos hnew]
    exact Array.mem_push_self
  · obtain ⟨k, hk, hsame⟩ := List.any_eq_true.1 (not_not.1 (mt (h.insert_fst hp).2 hnew))
    obtain rfl := hp.eq_of_sameKey htext hsame
    exact mem_keys_insert (h.mem_keys.2 hk)

/-- An entry that is replaced gives way to one with the same key. -/
theorem exists_entry_insert (h : MadeBy p stores d) (hp : p.WellFormed) {e : Entry}
    (he : e ∈ d.table.entries) (hname : p.sameKey e.key name = true) (key value : Value) :
    ∃ e' ∈ (d.insert p key value).table.entries, p.sameKey e'.key name = true := by
  by_cases hreplaced : p.sameKey e.key key = true
  · exact ⟨_, (h.mem_entries_insert hp).2 (Or.inl rfl),
      hp.sameKey_trans (hp.sameKey_symm hreplaced) hname⟩
  · have hkept : e ∈ (d.insert p key value).table.entries :=
      (h.mem_entries_insert hp).2 (Or.inr ⟨he, Bool.eq_false_iff.2 hreplaced⟩)
    exact ⟨e, hkept, hname⟩

theorem latest_insert (h : MadeBy p stores d) (hp : p.WellFormed) (hnan : key.isNaN = false)
    (value : Value) {e : Entry} (he : e ∈ (d.insert p key value).table.entries) :
    latest? p (stores ++ [(key, value)]) e.key = some e.value := by
  rw [latest?_concat]
  rcases (h.mem_entries_insert hp).1 he with rfl | ⟨hold, hother⟩
  · exact if_pos ((hp.sameKey_iff key hnan).2 rfl)
  · rw [if_neg fun hsame => ?_, h.latest e hold]
    rw [hp.sameKey_symm hsame] at hother
    cases hother

theorem insert (h : MadeBy p stores d) (hp : p.WellFormed) (hkey : p.Holds key)
    (hnan : key.isNaN = false) (value : Value) :
    MadeBy p (stores ++ [(key, value)]) (d.insert p key value) where
  table := by
    rw [table_insert]
    exact h.table.insert hp hkey value .value
  keys := h.toList_keys_insert hp key value
  size := h.size_keys_insert key value
  numbers := by
    rw [List.forall_mem_append, List.forall_mem_singleton]
    exact ⟨h.numbers, hnan⟩
  texts := by
    rw [List.forall_mem_append, List.forall_mem_singleton]
    exact ⟨fun s hs htext => mem_keys_insert (h.texts s hs htext),
      fun htext => h.text_mem_keys_insert hp htext value⟩
  stored := by
    rw [List.forall_mem_append, List.forall_mem_singleton]
    refine ⟨fun s hs => ?_, ?_⟩
    · obtain ⟨e, he, hsame⟩ := h.stored s hs
      exact h.exists_entry_insert hp he hsame key value
    · exact ⟨_, (h.mem_entries_insert hp).2 (Or.inl rfl), (hp.sameKey_iff key hnan).2 rfl⟩
  latest _ he := h.latest_insert hp hnan value he

/-- A dict stays what the stores made of it over a pool with the same texts in its slots. -/
theorem overPool (h : MadeBy p stores d) (hp : p.WellFormed)
    (hkept : ∀ r ∈ (Object.dict d).refs, ∀ x, p.get? r = some x → q.get? r = some x) :
    MadeBy q stores d := by
  have hentry : ∀ e ∈ d.table.entries, ∀ i, e.key = .ref (.text i) → ∃ x,
      p.arena.get? i = some x ∧ q.arena.get? i = some x := by
    intro e he i hi
    obtain ⟨x, hx⟩ := h.table.held e he i hi
    refine ⟨x, hx, hkept (.text i) (List.mem_append_right _ (List.mem_flatMap.2 ⟨e, he, ?_⟩)) x hx⟩
    rw [hi]
    exact List.mem_append_left _ List.mem_cons_self
  have htextOf {v : Value} (hv : ∀ i, v = .ref (.text i) → ∃ x,
      p.arena.get? i = some x ∧ q.arena.get? i = some x) : q.textOf? v = p.textOf? v := by
    rcases v with _ | _ | _ | (i | i)
    case ref.text =>
      obtain ⟨x, hx, hx'⟩ := hv i rfl
      exact hx'.trans hx.symm
    all_goals rfl
  have hentries : ∀ e ∈ d.table.entries, q.textOf? e.key = p.textOf? e.key :=
    fun e he => htextOf (hentry e he)
  -- a text key of a store is the key of an entry
  have hstores : ∀ s ∈ stores, q.textOf? s.1 = p.textOf? s.1 := by
    intro s hs
    obtain ⟨e, he, hsame⟩ := h.stored s hs
    refine htextOf fun i hi => hentry e he i ?_
    rw [← hi]
    exact (hp.eq_of_sameKey (by rw [hi]; rfl) (hp.sameKey_symm hsame)).symm
  refine ⟨h.table.overPool (fun e he i hi => ?_) hentries, ?_, h.size, h.numbers, h.texts, ?_, ?_⟩
  · obtain ⟨x, -, hx⟩ := hentry e he i hi
    exact ⟨x, hx⟩
  · refine h.keys.trans (Distinct.congr fun a ha b hb => ?_).symm
    obtain ⟨s, hs, rfl⟩ := List.mem_map.1 ha
    obtain ⟨t, ht, rfl⟩ := List.mem_map.1 hb
    exact Pool.sameKey_congr (hstores s hs) (hstores t ht)
  · intro s hs
    obtain ⟨e, he, hsame⟩ := h.stored s hs
    exact ⟨e, he, (Pool.sameKey_congr (hentries e he) (hstores s hs)).trans hsame⟩
  · intro e he
    rw [← h.latest e he]
    exact latest?_overPool fun s hs => Pool.sameKey_congr (hstores s hs) (hentries e he)

/-! What a dict shows. -/

/-- A search gives what was stored last. -/
theorem get?_eq (h : MadeBy p stores d) (hp : p.WellFormed) (name : Value) :
    d.table.get? p name = latest? p stores name := by
  unfold Table.get?
  cases hfound : d.table.entry? p name with
  | some e =>
    obtain ⟨he, hsame⟩ := (h.table.entry?_eq_some hp).1 hfound
    rw [Option.map_some, ← latest?_congr hp hsame, h.latest e he]
  | none =>
    cases hlatest : latest? p stores name with
    | none => rfl
    | some v =>
      obtain ⟨s, hs, hstored⟩ := exists_store hlatest
      obtain ⟨e, he, hsame⟩ := h.stored s hs
      rw [(h.table.entry?_eq_some hp).2 ⟨he, hp.sameKey_trans hsame hstored⟩] at hfound
      cases hfound

/-- No key is listed twice. -/
theorem apart (h : MadeBy p stores d) :
    d.keys.toList.Pairwise fun a b => p.sameKey b a = false := by
  rw [h.keys]
  exact Distinct.pairwise

/-- Each key of the list has a value. -/
theorem exists_latest (h : MadeBy p stores d) (hp : p.WellFormed) (hkey : key ∈ d.keys) :
    ∃ v, latest? p stores key = some v := by
  obtain ⟨s, hs, rfl⟩ := h.exists_stored hkey
  obtain ⟨e, he, hsame⟩ := h.stored s hs
  exact ⟨e.value, (latest?_congr hp hsame).symm.trans (h.latest e he)⟩

end MadeBy

end Dict

end ScriptMachine
