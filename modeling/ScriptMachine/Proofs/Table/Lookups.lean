import ScriptMachine.Proofs.Table.Contents

/-!
Searches after a table was written. A search finds what was set last under its key, and in tables
that became one it finds the entry of the table that was stored over the others.
-/

namespace ScriptMachine.Table

variable {p : Pool} {t other : Table} {key name value : Value} {kind : EntryKind}

theorem entry?_empty (p : Pool) (name : Value) : entry? ({} : Table) p name = none := rfl

/-- A search finds what was set under its key, and under another key what it found before. -/
theorem InOrder.entry?_insert (h : InOrder p t) (hp : p.WellFormed) (hkey : p.Holds key) :
    entry? (t.insert p key value kind).2 p name =
      if p.sameKey key name = true then some (entryFor p key value kind)
      else t.entry? p name := by
  apply Option.ext
  intro e
  rw [(h.insert hp hkey value kind).entry?_eq_some hp, h.mem_insert hp]
  by_cases hname : p.sameKey key name = true
  · rw [if_pos hname, Option.some.injEq]
    constructor
    · rintro ⟨rfl | ⟨-, hother⟩, hsame⟩
      · rfl
      · rw [hp.sameKey_trans hsame (hp.sameKey_symm hname)] at hother
        cases hother
    · rintro rfl
      exact ⟨Or.inl rfl, hname⟩
  · rw [if_neg hname, h.entry?_eq_some hp]
    constructor
    · rintro ⟨rfl | ⟨he, -⟩, hsame⟩
      · exact absurd hsame hname
      · exact ⟨he, hsame⟩
    · rintro ⟨he, hsame⟩
      refine ⟨Or.inr ⟨he, Bool.eq_false_iff.2 fun hkeys => hname ?_⟩, hsame⟩
      exact hp.sameKey_trans (hp.sameKey_symm hkeys) hsame

theorem InOrder.entry?_set (h : InOrder p t) (hp : p.WellFormed) (hkey : p.Holds key) :
    entry? (t.set p key value) p name =
      if p.sameKey key name = true then some (entryFor p key value .value) else t.entry? p name :=
  h.entry?_insert hp hkey

theorem InOrder.entry?_set_self (h : InOrder p t) (hp : p.WellFormed) (hkey : p.Holds key)
    (hnan : key.isNaN = false) :
    entry? (t.set p key value) p key = some (entryFor p key value .value) := by
  rw [h.entry?_set hp hkey, if_pos ((hp.sameKey_iff key hnan).2 rfl)]

theorem InOrder.entry?_set_of_ne (h : InOrder p t) (hp : p.WellFormed) (hkey : p.Holds key)
    (hother : p.sameKey key name = false) :
    entry? (t.set p key value) p name = t.entry? p name := by
  rw [h.entry?_set hp hkey, hother, if_neg Bool.false_ne_true]

/-- A search over two tables that became one finds what the other table has, or else its own. -/
theorem InOrder.entry?_addAll (h : InOrder p t) (hp : p.WellFormed) (hother : InOrder p other) :
    entry? (t.addAll p other) p name = (other.entry? p name).or (t.entry? p name) := by
  apply Option.ext
  intro e
  rw [(h.addAll hp hother).entry?_eq_some hp, h.mem_addAll hp hother]
  cases hfound : other.entry? p name with
  | some a =>
    obtain ⟨ha, hsame⟩ := (hother.entry?_eq_some hp).1 hfound
    rw [Option.some_or, Option.some.injEq]
    constructor
    · rintro ⟨he | ⟨-, hall⟩, hename⟩
      · exact hother.eq_of_sameKey hp ha he (hp.sameKey_trans hsame (hp.sameKey_symm hename))
      · have hne := hall a ha
        rw [hp.sameKey_trans hename (hp.sameKey_symm hsame)] at hne
        cases hne
    · rintro rfl
      exact ⟨Or.inl ha, hsame⟩
  | none =>
    have hnone {a : Entry} (ha : a ∈ other.entries) (hsame : p.sameKey a.key name = true) :
        False := by
      rw [(hother.entry?_eq_some hp).2 ⟨ha, hsame⟩] at hfound
      cases hfound
    rw [Option.none_or, h.entry?_eq_some hp]
    constructor
    · rintro ⟨he | ⟨he, -⟩, hename⟩
      · exact absurd hename fun hename => hnone he hename
      · exact ⟨he, hename⟩
    · rintro ⟨he, hename⟩
      refine ⟨Or.inr ⟨he, fun a ha => Bool.eq_false_iff.2 fun hkeys => ?_⟩, hename⟩
      exact hnone ha (hp.sameKey_trans (hp.sameKey_symm hkeys) hename)

/-- Tables that were stored one over the other show the entry of the first that has the name, if
each is stored over those that come after it. -/
theorem entry?_foldr_addAll {α : Type} (hp : p.WellFormed) (table : α → Table) {items : List α}
    (htables : ∀ a ∈ items, InOrder p (table a)) :
    let joined := items.foldr (fun a (all : Table) => all.addAll p (table a)) {}
    InOrder p joined ∧ ∀ name, joined.entry? p name =
      items.findSome? fun a => entry? (table a) p name := by
  induction items with
  | nil => exact ⟨inOrder_empty, fun name => entry?_empty p name⟩
  | cons a rest ih =>
    rw [List.forall_mem_cons] at htables
    obtain ⟨hall, hentry⟩ := ih htables.2
    refine ⟨hall.addAll hp htables.1, fun name => ?_⟩
    rw [List.foldr_cons, hall.entry?_addAll hp htables.1, hentry, List.findSome?_cons]
    cases entry? (table a) p name <;> rfl

end ScriptMachine.Table
