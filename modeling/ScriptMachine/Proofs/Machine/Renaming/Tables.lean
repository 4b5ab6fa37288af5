import ScriptMachine.Proofs.Machine.Renaming

/-!
Operations on tables that are alike. The two tables may have their entries in different slots, and
so meet them in different orders; a search, an insertion and the union of two tables come to the same.
-/

namespace ScriptMachine.Table

variable {ρ : Renaming} {t u : Table} {p q : Pool} {k k' v v' : Value}

theorem alike_empty (ρ : Renaming) : ρ.Alike ({} : Table) {} where
  left := inOrder_empty
  right := inOrder_empty
  forth _ he := absurd he List.not_mem_nil
  back _ he := absurd he List.not_mem_nil

/-- Searches for the same among alike entries come to the same. -/
theorem Alike.search (h : t.Alike ρ u) {e? e'? : Option Entry} {P Q : Entry → Prop}
    (hleft : ∀ e, e? = some e ↔ e ∈ t.entries ∧ P e)
    (hright : ∀ e', e'? = some e' ↔ e' ∈ u.entries ∧ Q e')
    (hPQ : ∀ e e', e.Alike ρ e' → (P e ↔ Q e')) : ρ.Alike e? e'? := by
  cases hfound : e? with
  | none =>
    have hnone : e'? = none := by
      rw [Option.eq_none_iff_forall_ne_some]
      intro e' hfound'
      obtain ⟨he', hQ⟩ := (hright e').1 hfound'
      obtain ⟨e, he, hee⟩ := h.back e' he'
      exact nomatch hfound.symm.trans ((hleft e).2 ⟨he, (hPQ e e' hee).2 hQ⟩)
    rw [hnone]
    exact .none
  | some e =>
    obtain ⟨he, hP⟩ := (hleft e).1 hfound
    obtain ⟨e', he', hee⟩ := h.forth e he
    rw [(hright e').2 ⟨he', (hPQ e e' hee).1 hP⟩]
    exact .some hee

theorem Alike.entry? (h : t.Alike ρ u) (hp : p = ρ.left.pool) (hq : q = ρ.right.pool)
    (hk : ρ.Alike k k') : ρ.Alike (t.entry? p k) (u.entry? q k') := by
  subst hp hq
  refine h.search (fun _ => h.left.entry?_eq_some ρ.left.wellFormed)
    (fun _ => h.right.entry?_eq_some ρ.right.wellFormed) fun e e' hee => ?_
  rw [hee.key.sameKey hk]

theorem Alike.entryOfText? (h : t.Alike ρ u) (hp : p = ρ.left.pool) (hq : q = ρ.right.pool)
    (text : String) : ρ.Alike (t.entryOfText? p text) (u.entryOfText? q text) := by
  subst hp hq
  refine h.search (fun _ => h.left.entryOfText?_eq_some ρ.left.wellFormed)
    (fun _ => h.right.entryOfText?_eq_some ρ.right.wellFormed) fun e e' hee => ?_
  rw [Value.Alike.textOf? hee.key]

theorem Alike.get? (h : t.Alike ρ u) (hp : p = ρ.left.pool) (hq : q = ρ.right.pool)
    (hk : ρ.Alike k k') : ρ.Alike (t.get? p k) (u.get? q k') := by
  have hentry := h.entry? hp hq hk
  unfold Table.get?
  generalize t.entry? p k = e? at hentry
  generalize u.entry? q k' = e'? at hentry
  cases hentry with
  | none => exact .none
  | some hee => exact .some hee.value

/-- A key is new to both tables or to none, and stored into both. -/
theorem Alike.insert (h : t.Alike ρ u) (hp : p = ρ.left.pool) (hq : q = ρ.right.pool)
    (hk : ρ.Alike k k') (hv : ρ.Alike v v') (kind : EntryKind) :
    (t.insert p k v kind).1 = (u.insert q k' v' kind).1 ∧
      ρ.Alike (t.insert p k v kind).2 (u.insert q k' v' kind).2 := by
  subst hp hq
  have hnew : ρ.Alike (entryFor ρ.left.pool k v kind) (entryFor ρ.right.pool k' v' kind) :=
    ⟨hk, hv, rfl⟩
  refine ⟨?_, h.left.insert ρ.left.wellFormed hk.holds.1 v kind,
    h.right.insert ρ.right.wellFormed hk.holds.2 v' kind, ?_, ?_⟩
  · rw [Bool.eq_iff_iff, h.left.insert_fst ρ.left.wellFormed, h.right.insert_fst ρ.right.wellFormed]
    constructor
    · intro hall e' he'
      obtain ⟨e, he, hee⟩ := h.back e' he'
      rw [← hee.key.sameKey hk]
      exact hall e he
    · intro hall e he
      obtain ⟨e', he', hee⟩ := h.forth e he
      rw [hee.key.sameKey hk]
      exact hall e' he'
  · intro e he
    rcases (h.left.mem_insert ρ.left.wellFormed).1 he with rfl | ⟨hold, hne⟩
    · exact ⟨_, (h.right.mem_insert ρ.right.wellFormed).2 (Or.inl rfl), hnew⟩
    · obtain ⟨e', he', hee⟩ := h.forth e hold
      rw [hee.key.sameKey hk] at hne
      exact ⟨e', (h.right.mem_insert ρ.right.wellFormed).2 (Or.inr ⟨he', hne⟩), hee⟩
  · intro e' he'
    rcases (h.right.mem_insert ρ.right.wellFormed).1 he' with rfl | ⟨hold, hne⟩
    · exact ⟨_, (h.left.mem_insert ρ.left.wellFormed).2 (Or.inl rfl), hnew⟩
    · obtain ⟨e, he, hee⟩ := h.back e' hold
      rw [← hee.key.sameKey hk] at hne
      exact ⟨e, (h.left.mem_insert ρ.left.wellFormed).2 (Or.inr ⟨he, hne⟩), hee⟩

theorem Alike.set (h : t.Alike ρ u) (hp : p = ρ.left.pool) (hq : q = ρ.right.pool)
    (hk : ρ.Alike k k') (hv : ρ.Alike v v') : ρ.Alike (t.set p k v) (u.set q k' v') :=
  (h.insert hp hq hk hv .value).2

theorem Alike.addAll (h : t.Alike ρ u) (hp : p = ρ.left.pool) (hq : q = ρ.right.pool)
    {t' u' : Table} (h' : ρ.Alike t' u') : ρ.Alike (t.addAll p t') (u.addAll q u') := by
  subst hp hq
  refine ⟨h.left.addAll ρ.left.wellFormed h'.left,
    h.right.addAll ρ.right.wellFormed h'.right, ?_, ?_⟩
  · intro e he
    rcases (h.left.mem_addAll ρ.left.wellFormed h'.left).1 he with hnew | ⟨hold, hne⟩
    · obtain ⟨e', he', hee⟩ := h'.forth e hnew
      exact ⟨e', (h.right.mem_addAll ρ.right.wellFormed h'.right).2 (Or.inl he'), hee⟩
    · obtain ⟨e', he', hee⟩ := h.forth e hold
      refine ⟨e', (h.right.mem_addAll ρ.right.wellFormed h'.right).2
        (Or.inr ⟨he', fun a' ha' => ?_⟩), hee⟩
      obtain ⟨a, ha, haa⟩ := h'.back a' ha'
      rw [← hee.key.sameKey haa.key]
      exact hne a ha
  · intro e' he'
    rcases (h.right.mem_addAll ρ.right.wellFormed h'.right).1 he' with hnew | ⟨hold, hne⟩
    · obtain ⟨e, he, hee⟩ := h'.back e' hnew
      exact ⟨e, (h.left.mem_addAll ρ.left.wellFormed h'.left).2 (Or.inl he), hee⟩
    · obtain ⟨e, he, hee⟩ := h.back e' hold
      refine ⟨e, (h.left.mem_addAll ρ.left.wellFormed h'.left).2 (Or.inr ⟨he, fun a ha => ?_⟩), hee⟩
      obtain ⟨a', ha', haa⟩ := h'.forth a ha
      rw [hee.key.sameKey haa.key]
      exact hne a' ha'

end ScriptMachine.Table
