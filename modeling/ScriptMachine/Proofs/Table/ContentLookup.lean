import ScriptMachine.Proofs.Table.Contents
import ScriptMachine.Proofs.Table.Runs

/-!
Searches by contents. A text that is not interned can be searched for by its contents, and this
search knows the keys by their contents alone, while a search for a key compares cached hashes and
whole keys. In a table in order both end at the same entry. Tables over a pool come to be in order
and stay so along every run that leaves the keys of the tables in the pool, with keys of every kind,
NaN among them, and with tombstones in any number.
-/

namespace ScriptMachine

/-- The interned reference of a text is the same key as every reference with these contents. -/
theorem Pool.WellFormed.sameKey_text {p : Pool} (hp : p.WellFormed) {text : String} {k : Nat}
    (hk : p.lookup? text = some k) (key : Value) :
    p.sameKey key (.ref (.text k)) = true ↔ (p.textOf? key).map Interned.text = some text := by
  obtain ⟨x, hx, rfl⟩ := (hp.indexed text k).1 hk
  rw [← keyOf_eq_text_iff, ← keyOf_text hx]
  constructor
  · intro hsame
    exact (hp.sameKey_iff _ (isNaN_of_sameKey hsame)).1 hsame
  · intro hkey
    rw [keyOf_text hx] at hkey
    rw [hp.sameKey_iff _ (isNaN_of_keyOf_text hkey), hkey, keyOf_text hx]

namespace Table

variable {p : Pool} {t : Table} {text : String}

/-- A search for an interned text finds by its contents what it finds by its reference. -/
theorem InOrder.entryOfText?_of_interned (h : InOrder p t) (hp : p.WellFormed) {k : Nat}
    (hk : p.lookup? text = some k) : t.entryOfText? p text = t.entry? p (.ref (.text k)) := by
  apply Option.ext
  intro e
  rw [h.entryOfText?_eq_some hp, h.entry?_eq_some hp, hp.sameKey_text hk]

/-- A text that is not interned is under no key. -/
theorem InOrder.entryOfText?_of_absent (h : InOrder p t) (hp : p.WellFormed)
    (hk : p.lookup? text = none) : t.entryOfText? p text = none := by
  rw [Option.eq_none_iff_forall_ne_some]
  intro e he
  obtain ⟨-, hcontents⟩ := (h.entryOfText?_eq_some hp).1 he
  obtain ⟨x, hx, htext⟩ := Option.map_eq_some_iff.1 hcontents
  rcases hkey : e.key with _ | _ | _ | (i | i) <;> rw [hkey] at hx <;> try cases hx
  have hheld : p.lookup? text = some i := (hp.indexed text i).2 ⟨x, hx, htext⟩
  rw [hk] at hheld
  cases hheld

/-- The entry that a search by contents gives: that of the interned reference, if there is one. -/
theorem InOrder.entryOfText?_eq (h : InOrder p t) (hp : p.WellFormed) (text : String) :
    t.entryOfText? p text = (p.lookup? text).bind fun k => t.entry? p (.ref (.text k)) := by
  cases hk : p.lookup? text with
  | some k => exact h.entryOfText?_of_interned hp hk
  | none => exact h.entryOfText?_of_absent hp hk

/-- A search by contents sees an entry that was stored under a reference with these contents, and
under other keys what it saw before. -/
theorem InOrder.entryOfText?_insert (h : InOrder p t) (hp : p.WellFormed) {key : Value}
    (hkey : p.Holds key) (value : Value) (kind : EntryKind) (text : String) :
    (t.insert p key value kind).2.entryOfText? p text =
      if (p.textOf? key).map Interned.text = some text then some (entryFor p key value kind)
      else t.entryOfText? p text := by
  apply Option.ext
  intro e
  rw [(h.insert hp hkey value kind).entryOfText?_eq_some hp, h.mem_insert hp]
  split
  · next hname =>
    constructor
    · rintro ⟨rfl | ⟨-, hother⟩, hcontents⟩
      · rfl
      · have hclass : p.keyOf e.key = .text text := Pool.keyOf_eq_text_iff.2 hcontents
        rw [(hp.sameKey_iff key (Pool.isNaN_of_keyOf_text hclass)).2
          (hclass.trans (Pool.keyOf_eq_text_iff.2 hname).symm)] at hother
        cases hother
    · intro he
      obtain rfl := Option.some.inj he
      exact ⟨Or.inl rfl, hname⟩
  · next hname =>
    rw [h.entryOfText?_eq_some hp]
    constructor
    · rintro ⟨rfl | ⟨he, -⟩, hcontents⟩
      · exact absurd hcontents hname
      · exact ⟨he, hcontents⟩
    · rintro ⟨he, hcontents⟩
      refine ⟨Or.inr ⟨he, Bool.eq_false_iff.2 fun hsame => hname ?_⟩, hcontents⟩
      have hclass := (hp.sameKey_iff key (Pool.isNaN_of_sameKey hsame)).1 hsame
      exact Pool.keyOf_eq_text_iff.1 (hclass.symm.trans (Pool.keyOf_eq_text_iff.2 hcontents))

/-- A search by contents gives the same over a pool that keeps the texts of the table. -/
theorem InOrder.entryOfText?_keep (h : InOrder p t) (hp : p.WellFormed) {q : Pool}
    (hq : q.WellFormed) (hkept : ∀ i x, .text i ∈ t.refs → p.arena.get? i = some x →
      q.arena.get? i = some x) (text : String) :
    t.entryOfText? q text = t.entryOfText? p text := by
  apply Option.ext
  intro e
  rw [h.entryOfText?_eq_some hp, (h.keep hkept).entryOfText?_eq_some hq]
  exact and_congr_right fun he => by rw [(h.keys_kept hkept e he).2]

theorem InOrder.erase (h : InOrder p t) (hp : p.WellFormed) (key : Value) :
    InOrder p (t.erase p key).2 where
  shape := (h.shape.erase p key).1
  hashed := h.shape.forall_erase p key h.hashed
  held := h.shape.forall_erase p key h.held
  apart := by
    rcases (h.shape.erase p key).2 with ⟨-, herase⟩ | ⟨e, -, -, hperm⟩
    · rw [herase]
      exact h.apart
    · have hapart := (pairwise_of_perm hp hperm).1 h.apart
      rw [List.pairwise_cons] at hapart
      exact hapart.2

/-! Runs. -/

/-- The keys under which an operation stores something. -/
def Action.newKeys : Action → List Value
  | set _ key _ _ => [key]
  | extend _ added => added.map Entry.key
  | _ => []

namespace Store

variable {s : Store}

/-- The pool holds the keys of the tables. -/
def HoldsKeys (s : Store) : Prop := ∀ i, ∀ e ∈ (s.tables i).entries, s.pool.Holds e.key

/-- Along a run, the pool holds the keys of the tables and those that are stored into them. It need
not hold what was removed, nor what is searched for. -/
def Live (s : Store) : List Action → Prop
  | [] => s.HoldsKeys
  | a :: rest => s.HoldsKeys ∧ (∀ key ∈ a.newKeys, s.pool.Holds key) ∧ Live (s.step a).2 rest

theorem Live.holdsKeys {actions : List Action} (h : s.Live actions) : s.HoldsKeys := by
  cases actions with
  | nil => exact h
  | cons a rest => exact h.1

/-- The tables of a store are in order over its pool. -/
structure Ordered (s : Store) : Prop where
  pool : s.pool.WellFormed
  tables : ∀ i, (s.tables i).InOrder s.pool

theorem ordered_empty : Ordered {} := ⟨Pool.wellFormed_empty, fun _ => inOrder_empty⟩

theorem Ordered.put (h : s.Ordered) (i : Nat) {t : Table} (ht : t.InOrder s.pool) :
    (s.put i t).Ordered := by
  refine ⟨h.pool, fun j => ?_⟩
  by_cases hj : j = i
  · simpa only [Store.put, hj, if_true] using ht
  · simpa only [Store.put, hj, if_false] using h.tables j

/-- Tables stay in order over a changed pool that still holds their keys. -/
theorem Ordered.onPool (h : s.Ordered) (a : Action) (hbefore : s.HoldsKeys)
    (hafter : HoldsKeys { s with pool := a.onPool s.pool }) :
    Ordered { s with pool := a.onPool s.pool } where
  pool := a.wellFormed_onPool h.pool
  tables i := (h.tables i).overPool (hafter i) fun e he =>
    a.textOf?_onPool h.pool (hbefore i e he) (hafter i e he)

/-- One operation keeps the tables in order. -/
theorem Ordered.step (h : s.Ordered) (a : Action) (hbefore : s.HoldsKeys)
    (hnew : ∀ key ∈ a.newKeys, s.pool.Holds key) (hafter : (s.step a).2.HoldsKeys) :
    (s.step a).2.Ordered := by
  cases a with
  | set i key value kind =>
    exact h.put i ((h.tables i).insert h.pool (hnew key List.mem_cons_self) value kind)
  | remove i key => exact h.put i ((h.tables i).erase h.pool key)
  | addAll i j => exact h.put i ((h.tables i).addAll h.pool (h.tables j))
  | extend i added =>
    refine h.put i ((h.tables i).insertAll h.pool fun e he => ?_)
    exact hnew e.key (List.mem_map.2 ⟨e, he, rfl⟩)
  | clear i => exact h.put i inOrder_empty
  | intern text => exact h.onPool (.intern text) hbefore hafter
  | mark i => exact h.onPool (.mark i) hbefore hafter
  | sweep => exact h.onPool .sweep hbefore hafter

/-- A whole run keeps the tables in order. -/
theorem Ordered.run (h : s.Ordered) {actions : List Action} (hlive : s.Live actions) :
    (s.run actions).2.Ordered := by
  induction actions generalizing s with
  | nil => exact h
  | cons a rest ih =>
    obtain ⟨hkeys, hnew, hrest⟩ := hlive
    exact ih (h.step a hkeys hnew hrest.holdsKeys) hrest

/-- Tables whose keys stay in the pool from their first use on are a case of this. -/
theorem Sound.live {used : List Value} (h : s.Sound used) {actions : List Action}
    (hsteady : s.Steady used actions) : s.Live actions := by
  induction actions generalizing s used with
  | nil => exact fun i e he => hsteady e.key (h.keys i e he)
  | cons a rest ih =>
    obtain ⟨hbefore, hrest⟩ := hsteady
    have hnext := ih (h.step a hbefore hrest.holds) hrest
    refine ⟨fun i e he => hbefore e.key (List.mem_append_left _ (h.keys i e he)),
      fun key hkey => hbefore key (List.mem_append_right _ ?_), hnext⟩
    cases a with
    | set i key' value kind => exact hkey
    | extend i added => exact hkey
    | _ => cases hkey

end Store

end Table

end ScriptMachine
