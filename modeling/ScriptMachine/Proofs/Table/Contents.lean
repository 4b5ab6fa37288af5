import Mathlib.Data.List.Pairwise
import ScriptMachine.Proofs.Table.Shape

/-!
The entries of a table in order. No two of them have the same key, so a search finds an entry
exactly if it is there under the key, setting a key replaces its entry, and storing the entries of
another table replaces those that share a key with it. None of this depends on the slots the entries
are in. NaN is not the same key as itself: it is stored each time anew, and a search never finds it.
-/

namespace ScriptMachine

namespace NumericEquality

theorem isNaN_of_beq_zero {x : Float} (h : (x == 0) = true) : x.isNaN = false := by
  obtain ⟨s, hs⟩ := (beq_zero_iff x).1 h
  rw [Bool.eq_false_iff, Ne, isNaN_iff, hs]
  nofun

theorem isNaN_of_beq {x y : Float} (h : (x == y) = true) : x.isNaN = false := by
  rcases (beq_iff x y).1 h with ⟨hx, -⟩ | ⟨-, hx⟩
  · exact isNaN_of_beq_zero hx
  · exact hx

theorem isNaN_representative (x : Float) : (representative x).isNaN = x.isNaN := by
  unfold representative
  split
  · next hx => rw [isNaN_of_beq_zero hx, isNaN_of_beq_zero (x := 0) (by decide)]
  · rfl

end NumericEquality

namespace Pool

variable {p : Pool} {a b c : Value}

theorem isNaN_of_sameKey (h : p.sameKey a b = true) : a.isNaN = false := by
  cases a with
  | number x =>
    cases b with
    | number y => exact NumericEquality.isNaN_of_beq h
    | _ => cases h
  | _ => rfl

theorem isNaN_of_keyOf_eq (h : p.keyOf a = p.keyOf b) (ha : a.isNaN = false) :
    b.isNaN = false := by
  cases b with
  | number y =>
    rcases a with _ | _ | x | (i | i)
    case number =>
      have hxy : NumericEquality.representative x = NumericEquality.representative y :=
        Key.number.inj h
      show y.isNaN = false
      rw [← NumericEquality.isNaN_representative, ← hxy, NumericEquality.isNaN_representative]
      exact ha
    case ref.text => exact absurd h (keyOf_text_ne_keyOf i (by simp))
    all_goals simp [keyOf] at h
  | _ => rfl

theorem isNaN_of_keyOf_text {text : String} (h : p.keyOf a = .text text) : a.isNaN = false := by
  cases a with
  | number x => cases h
  | _ => rfl

theorem WellFormed.sameKey_symm (hp : p.WellFormed) (h : p.sameKey a b = true) :
    p.sameKey b a = true := by
  have ha := isNaN_of_sameKey h
  have hkey := (hp.sameKey_iff b ha).1 h
  exact (hp.sameKey_iff a (isNaN_of_keyOf_eq hkey ha)).2 hkey.symm

theorem WellFormed.sameKey_trans (hp : p.WellFormed) (hab : p.sameKey a b = true)
    (hbc : p.sameKey b c = true) : p.sameKey a c = true := by
  have ha := isNaN_of_sameKey hab
  have hkey := (hp.sameKey_iff b ha).1 hab
  rw [hp.sameKey_iff c ha, hkey]
  exact (hp.sameKey_iff c (isNaN_of_sameKey hbc)).1 hbc

/-- Only the texts of two keys matter for whether they are the same. -/
theorem sameKey_congr {q : Pool} (ha : q.textOf? a = p.textOf? a) (hb : q.textOf? b = p.textOf? b) :
    q.sameKey a b = p.sameKey a b := by
  cases a with
  | ref r =>
    cases b with
    | ref s =>
      have hr : q.get? r = p.get? r := ha
      have hs : q.get? s = p.get? s := hb
      simp only [sameKey, hr, hs]
    | _ => rfl
  | _ => rfl

theorem hashKey_congr {q : Pool} (ha : q.textOf? a = p.textOf? a) :
    q.hashKey a = p.hashKey a := by
  rw [hashKey, ha, hashKey]

end Pool

namespace Table

/-- Two entries have different keys. -/
def Apart (p : Pool) (e e' : Entry) : Prop := p.sameKey e.key e'.key = false

/-- A table whose searches find what is there. -/
structure InOrder (p : Pool) (t : Table) : Prop where
  shape : t.Shape
  hashed : Hashed p t
  held : ∀ e ∈ t.entries, p.Holds e.key
  apart : t.entries.Pairwise (Apart p)

variable {p q : Pool} {t : Table} {key value : Value} {kind : EntryKind} {e : Entry}

theorem Apart.symm (hp : p.WellFormed) {e e' : Entry} (h : Apart p e e') : Apart p e' e := by
  unfold Apart at h ⊢
  rw [Bool.eq_false_iff] at h ⊢
  exact mt hp.sameKey_symm h

theorem pairwise_of_perm (hp : p.WellFormed) {es es' : List Entry} (hperm : es.Perm es') :
    es.Pairwise (Apart p) ↔ es'.Pairwise (Apart p) :=
  hperm.pairwise_iff fun h => h.symm hp

theorem inOrder_empty : InOrder p {} where
  shape := shape_empty
  hashed _ he := absurd he List.not_mem_nil
  held _ he := absurd he List.not_mem_nil
  apart := List.Pairwise.nil

/-- A table stays in order over a pool with the same texts under its keys. -/
theorem InOrder.overPool (h : InOrder p t) (hheld : ∀ e ∈ t.entries, q.Holds e.key)
    (htexts : ∀ e ∈ t.entries, q.textOf? e.key = p.textOf? e.key) : InOrder q t where
  shape := h.shape
  hashed e he := by rw [h.hashed e he, Pool.hashKey_congr (htexts e he)]
  held := hheld
  apart := by
    refine h.apart.imp_of_mem fun {e e'} he he' hapart => ?_
    unfold Apart
    rwa [Pool.sameKey_congr (htexts e he) (htexts e' he')]

/-- A pool that keeps the texts a table refers to keeps the keys of the table. -/
theorem InOrder.keys_kept (h : InOrder p t) (hkept : ∀ i x, .text i ∈ t.refs →
    p.arena.get? i = some x → q.arena.get? i = some x) :
    ∀ e ∈ t.entries, q.Holds e.key ∧ q.textOf? e.key = p.textOf? e.key := by
  intro e he
  have hkey : ∀ i, e.key = .ref (.text i) →
      ∃ x, p.arena.get? i = some x ∧ q.arena.get? i = some x := by
    intro i hi
    obtain ⟨x, hx⟩ := h.held e he i hi
    refine ⟨x, hx, hkept i x (List.mem_flatMap.2 ⟨e, he, List.mem_append_left _ ?_⟩) hx⟩
    rw [hi]
    exact List.mem_cons_self
  refine ⟨fun i hi => (hkey i hi).imp fun _ => And.right, ?_⟩
  rcases hv : e.key with _ | _ | _ | (i | i)
  case ref.text =>
    obtain ⟨x, hx, hx'⟩ := hkey i hv
    exact hx'.trans hx.symm
  all_goals rfl

theorem InOrder.keep (h : InOrder p t) (hkept : ∀ i x, .text i ∈ t.refs →
    p.arena.get? i = some x → q.arena.get? i = some x) : InOrder q t :=
  h.overPool (fun e he => (h.keys_kept hkept e he).1) fun e he => (h.keys_kept hkept e he).2

/-- Among entries with the hash of their key, an entry holds a key if it is under the same key. -/
theorem holdsKey_eq (hhash : e.hash = p.hashKey e.key) :
    holdsKey p key (p.hashKey key) e = p.sameKey e.key key := by
  unfold holdsKey
  cases hsame : p.sameKey e.key key with
  | false => rw [Bool.and_false]
  | true => rw [hhash, p.hashKey_eq_of_sameKey hsame, beq_self_eq_true, Bool.and_true]

/-! Searches. -/

/-- Two entries under the same key are one. -/
theorem InOrder.eq_of_sameKey (h : InOrder p t) (hp : p.WellFormed) {e' : Entry}
    (he : e ∈ t.entries) (he' : e' ∈ t.entries) (hsame : p.sameKey e.key e'.key = true) :
    e = e' := by
  by_contra hne
  have hsymm : Std.Symm (Apart p) := ⟨fun _ _ => Apart.symm hp⟩
  have hapart := h.apart.forall he he' hne
  rw [Apart, hsame] at hapart
  cases hapart

/-- A search gives the entry that it accepts, if it accepts one at most and starts from its hash. -/
theorem InOrder.entryAt?_seek (h : InOrder p t) (hcapacity : t.capacity ≠ 0) {hash : UInt32}
    {accept : Entry → Bool} (hhash : ∀ e ∈ t.entries, accept e = true → e.hash = hash)
    (hone : ∀ e ∈ t.entries, ∀ e' ∈ t.entries, accept e = true → accept e' = true → e = e') :
    entryAt? (seek t.slots hash accept) = some e ↔ e ∈ t.entries ∧ accept e = true := by
  obtain ⟨i, hempty⟩ := h.shape.exists_empty hcapacity
  rcases seek_cases hash accept hempty with ⟨j, e', hseek, hj, hhit⟩ | ⟨j, d, hseek, hvain, -, -⟩
  · have he' : e' ∈ t.entries := mem_entries.2 ⟨j, hj⟩
    rw [hseek]
    show some e' = some e ↔ _
    rw [Option.some.injEq]
    constructor
    · rintro rfl
      exact ⟨he', hhit⟩
    · rintro ⟨he, haccept⟩
      exact hone e' he' e he hhit haccept
  · rw [hseek]
    refine iff_of_false nofun ?_
    rintro ⟨he, haccept⟩
    rw [h.shape.reject_of_vain hvain he (hhash e he)] at haccept
    cases haccept

/-- A search for a key gives the entry under the key. -/
theorem InOrder.entry?_eq_some (h : InOrder p t) (hp : p.WellFormed) :
    t.entry? p key = some e ↔ e ∈ t.entries ∧ p.sameKey e.key key = true := by
  by_cases hslots : t.slots.isEmpty = true
  · simp [Table.entry?, hslots, entries_of_isEmpty hslots]
  · rw [Table.entry?, if_neg hslots]
    dsimp only
    rw [h.entryAt?_seek (mt isEmpty_slots.2 hslots) fun e _ => hash_of_holdsKey]
    · exact and_congr_right fun he => by rw [holdsKey_eq (h.hashed e he)]
    · intro e he e' he' haccept haccept'
      rw [holdsKey_eq (h.hashed e he)] at haccept
      rw [holdsKey_eq (h.hashed e' he')] at haccept'
      exact h.eq_of_sameKey hp he he' (hp.sameKey_trans haccept (hp.sameKey_symm haccept'))

/-- A search for a text gives the entry under the text. -/
theorem InOrder.entryOfText?_eq_some (h : InOrder p t) (hp : p.WellFormed) {text : String} :
    t.entryOfText? p text = some e ↔
      e ∈ t.entries ∧ (p.textOf? e.key).map Interned.text = some text := by
  by_cases hslots : t.slots.isEmpty = true
  · simp [Table.entryOfText?, hslots, entries_of_isEmpty hslots]
  · rw [Table.entryOfText?, if_neg hslots]
    dsimp only
    rw [h.entryAt?_seek (mt isEmpty_slots.2 hslots) fun e he => hash_of_holdsText h.hashed he,
      holdsText_iff hp, Pool.keyOf_eq_text_iff]
    intro e he e' he' haccept haccept'
    rw [holdsText_iff hp] at haccept haccept'
    have hnumber := Pool.isNaN_of_keyOf_text haccept
    exact h.eq_of_sameKey hp he he'
      ((hp.sameKey_iff e'.key hnumber).2 (haccept.trans haccept'.symm))

/-! Setting a key. -/

/-- Setting a key replaces the entry under the key, or adds one. -/
theorem InOrder.insert_cases (h : InOrder p t) (hp : p.WellFormed) (key value : Value)
    (kind : EntryKind) : ∃ rest, (t.insert p key value kind).2.entries.Perm
        (entryFor p key value kind :: rest) ∧
      (∀ e, e ∈ rest ↔ e ∈ t.entries ∧ p.sameKey e.key key = false) ∧
      rest.Pairwise (Apart p) ∧
      ((t.insert p key value kind).1 = true ↔ ∀ e ∈ t.entries, p.sameKey e.key key = false) := by
  rcases (h.shape.insert p key value kind).2 with
    ⟨hlacks, hnew, hperm⟩ | ⟨e, rest, haccept, hnew, hold, hperm⟩
  · have hlacks' : ∀ e ∈ t.entries, p.sameKey e.key key = false := fun e he => by
      rw [← holdsKey_eq (h.hashed e he)]
      exact hlacks e he
    exact ⟨t.entries, hperm, fun e => ⟨fun he => ⟨he, hlacks' e he⟩, And.left⟩, h.apart,
      iff_of_true hnew hlacks'⟩
  · have he : e ∈ t.entries := hold.mem_iff.2 List.mem_cons_self
    rw [holdsKey_eq (h.hashed e he)] at haccept
    have hapart := (pairwise_of_perm hp hold).1 h.apart
    rw [List.pairwise_cons] at hapart
    refine ⟨rest, hperm, fun e' => ?_, hapart.2, iff_of_false (by simp [hnew]) fun hall => ?_⟩
    · rw [hold.mem_iff, List.mem_cons]
      constructor
      · intro he'
        refine ⟨Or.inr he', Bool.eq_false_iff.2 fun hsame => ?_⟩
        have hne := hapart.1 e' he'
        rw [Apart, hp.sameKey_trans haccept (hp.sameKey_symm hsame)] at hne
        cases hne
      · rintro ⟨rfl | he', hne⟩
        · rw [haccept] at hne
          cases hne
        · exact he'
    · rw [hall e he] at haccept
      cases haccept

theorem InOrder.mem_insert (h : InOrder p t) (hp : p.WellFormed) :
    e ∈ (t.insert p key value kind).2.entries ↔
      e = entryFor p key value kind ∨ e ∈ t.entries ∧ p.sameKey e.key key = false := by
  obtain ⟨rest, hperm, hrest, -, -⟩ := h.insert_cases hp key value kind
  rw [hperm.mem_iff, List.mem_cons, hrest]

theorem InOrder.insert_fst (h : InOrder p t) (hp : p.WellFormed) :
    (t.insert p key value kind).1 = true ↔ ∀ e ∈ t.entries, p.sameKey e.key key = false := by
  obtain ⟨-, -, -, -, hfst⟩ := h.insert_cases hp key value kind
  exact hfst

theorem InOrder.insert (h : InOrder p t) (hp : p.WellFormed) (hkey : p.Holds key) (value : Value)
    (kind : EntryKind) : InOrder p (t.insert p key value kind).2 where
  shape := (h.shape.insert p key value kind).1
  hashed := h.shape.forall_insert p key value kind rfl h.hashed
  held := h.shape.forall_insert p key value kind hkey h.held
  apart := by
    obtain ⟨rest, hperm, hrest, hapart, -⟩ := h.insert_cases hp key value kind
    rw [pairwise_of_perm hp hperm, List.pairwise_cons]
    refine ⟨fun e he => ?_, hapart⟩
    have hold : Apart p e (entryFor p key value kind) := ((hrest e).1 he).2
    exact hold.symm hp

/-! Storing the entries of another table. -/

/-- Of entries with different keys each is stored, over the entries under their keys. -/
theorem InOrder.mem_insertAll (h : InOrder p t) (hp : p.WellFormed) {added : List Entry}
    (hheld : ∀ e ∈ added, p.Holds e.key) (hapart : added.Pairwise (Apart p)) :
    e ∈ (t.insertAll p added).entries ↔
      (∃ a ∈ added, e = entryFor p a.key a.value a.kind) ∨
        e ∈ t.entries ∧ ∀ a ∈ added, p.sameKey e.key a.key = false := by
  induction added generalizing t with
  | nil => simp [insertAll]
  | cons a added ih =>
    rw [List.pairwise_cons] at hapart
    rw [List.forall_mem_cons] at hheld
    have hstep := h.insert hp hheld.1 a.value a.kind
    have hfold : t.insertAll p (a :: added) =
        (t.insert p a.key a.value a.kind).2.insertAll p added := rfl
    rw [hfold, ih hstep hheld.2 hapart.2, h.mem_insert hp]
    constructor
    · rintro (⟨b, hb, rfl⟩ | ⟨rfl | ⟨he, hne⟩, hall⟩)
      · exact Or.inl ⟨b, List.mem_cons_of_mem a hb, rfl⟩
      · exact Or.inl ⟨a, List.mem_cons_self, rfl⟩
      · exact Or.inr ⟨he, List.forall_mem_cons.2 ⟨hne, hall⟩⟩
    · rintro (⟨b, hb, rfl⟩ | ⟨he, hall⟩)
      · rcases List.mem_cons.1 hb with rfl | hmem
        · exact Or.inr ⟨Or.inl rfl, hapart.1⟩
        · exact Or.inl ⟨b, hmem, rfl⟩
      · rw [List.forall_mem_cons] at hall
        exact Or.inr ⟨Or.inr ⟨he, hall.1⟩, hall.2⟩

theorem InOrder.insertAll (h : InOrder p t) (hp : p.WellFormed) {added : List Entry}
    (hheld : ∀ e ∈ added, p.Holds e.key) : InOrder p (t.insertAll p added) := by
  induction added generalizing t with
  | nil => exact h
  | cons a added ih =>
    rw [List.forall_mem_cons] at hheld
    exact ih (h.insert hp hheld.1 a.value a.kind) hheld.2

theorem InOrder.addAll (h : InOrder p t) (hp : p.WellFormed) {other : Table}
    (hother : InOrder p other) : InOrder p (t.addAll p other) :=
  h.insertAll hp hother.held

/-- What two tables become as one: the entries of the other, and its own under other keys. -/
theorem InOrder.mem_addAll (h : InOrder p t) (hp : p.WellFormed) {other : Table}
    (hother : InOrder p other) : e ∈ (t.addAll p other).entries ↔
      e ∈ other.entries ∨ e ∈ t.entries ∧ ∀ a ∈ other.entries, p.sameKey e.key a.key = false := by
  have hsame {a : Entry} (ha : a ∈ other.entries) : entryFor p a.key a.value a.kind = a := by
    rw [entryFor, ← hother.hashed a ha]
  unfold Table.addAll
  rw [h.mem_insertAll hp hother.held hother.apart]
  apply or_congr_left
  constructor
  · rintro ⟨a, ha, rfl⟩
    rwa [hsame ha]
  · intro he
    exact ⟨e, he, (hsame he).symm⟩

end Table

end ScriptMachine
