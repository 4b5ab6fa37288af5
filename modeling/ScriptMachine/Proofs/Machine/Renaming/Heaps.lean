import ScriptMachine.Proofs.Heap.OrderedTables
import ScriptMachine.Proofs.Machine.Births
import ScriptMachine.Proofs.Machine.Coverage
import ScriptMachine.Proofs.Machine.Renaming.Tables

/-!
Heaps that are the same but for a renaming. Paired references lead to objects that are alike or to
the same text. What is stored into both heaps is paired from then on; a change of paired objects
keeps the renaming; and heaps that keep what is referred to are renamed by what is left of the
pairs.
-/

namespace ScriptMachine

/-- A heap between collections, with every table in order and every closure next to the function it
was made of. -/
structure Heap.Composed (h : Heap) : Prop where
  wellFormed : h.WellFormed
  rest : h.AtRest
  inOrder : h.InOrder
  closures : ∀ r c, h.get? r = some (.closure c) → h.get? c.function = some (.function c.proto)

/-- A change of an object that leaves functions and closures alone. -/
def Object.LeavesCode (f : Object → Object) (o : Object) : Prop :=
  f o = o ∨ o.isCode = false ∧ (f o).isCode = false

namespace Heap.Composed

variable {h : Heap} {r : Ref} {o : Object}

theorem alloc (hh : h.Composed) (htables : ∀ t ∈ o.tables, t.InOrder h.pool)
    (hcode : ∀ c, o = .closure c → h.get? c.function = some (.function c.proto)) :
    (h.alloc o).2.Composed where
  wellFormed := hh.wellFormed.alloc o
  rest := hh.rest.alloc hh.wellFormed o
  inOrder := hh.inOrder.alloc hh.wellFormed htables
  closures s c hs := by
    rw [get?_alloc hh.wellFormed] at hs
    by_cases hnew : s = (h.alloc o).1
    · rw [if_pos hnew] at hs
      exact hh.wellFormed.get?_alloc_of_get? o (hcode c (Option.some.inj hs))
    · rw [if_neg hnew] at hs
      exact hh.wellFormed.get?_alloc_of_get? o (hh.closures s c hs)

theorem intern (hh : h.Composed) (text : String) : (h.intern text).2.Composed where
  wellFormed := hh.wellFormed.intern text
  rest := hh.rest.intern hh.wellFormed text
  inOrder := hh.inOrder.intern hh.wellFormed text
  closures := hh.closures

/-- After a change that leaves code alone, functions and closures are where they were. -/
theorem get?_update_iff {f : Object → Object} (hf : ∀ o, h.get? r = some o → Object.LeavesCode f o)
    (ho : o.isCode = true) {s : Ref} : (h.update r f).get? s = some o ↔ h.get? s = some o := by
  rw [get?_update]
  by_cases hrs : r = s
  · subst hrs
    rw [if_pos rfl]
    cases hold : h.get? r with
    | none => rfl
    | some old =>
      rw [Option.map_some, Option.some.injEq, Option.some.injEq]
      rcases hf old hold with hsame | ⟨hbefore, hafter⟩
      · rw [hsame]
      · constructor
        · rintro rfl
          rw [hafter] at ho
          cases ho
        · rintro rfl
          rw [hbefore] at ho
          cases ho
  · rw [if_neg hrs]

theorem update (hh : h.Composed) {f : Object → Object}
    (htables : ∀ o, h.get? r = some o → ∀ t ∈ (f o).tables, t.InOrder h.pool)
    (hf : ∀ o, h.get? r = some o → Object.LeavesCode f o) : (h.update r f).Composed where
  wellFormed := hh.wellFormed.update r f
  rest := hh.rest.update r f
  inOrder := hh.inOrder.update htables
  closures s c hs := by
    rw [get?_update_iff hf rfl] at hs ⊢
    exact hh.closures s c hs

/-- What a heap has that never changes. -/
def fixture (hh : h.Composed) : Fixture where
  pool := h.pool
  code r o := o.isCode = true ∧ h.get? r = some o
  wellFormed := hh.wellFormed.pool

theorem fixture_le_alloc (hh : h.Composed) (htables : ∀ t ∈ o.tables, t.InOrder h.pool)
    (hcode : ∀ c, o = .closure c → h.get? c.function = some (.function c.proto)) :
    hh.fixture ≤ (hh.alloc htables hcode).fixture where
  texts := id
  code ho := ⟨ho.1, hh.wellFormed.get?_alloc_of_get? o ho.2⟩

theorem fixture_le_intern (hh : h.Composed) (text : String) :
    hh.fixture ≤ (hh.intern text).fixture where
  texts := hh.wellFormed.pool.get?_intern text
  code := id

theorem fixture_update (hh : h.Composed) {f : Object → Object}
    (htables : ∀ o, h.get? r = some o → ∀ t ∈ (f o).tables, t.InOrder h.pool)
    (hf : ∀ o, h.get? r = some o → Object.LeavesCode f o) :
    (hh.update htables hf).fixture = hh.fixture := by
  have hpool := h.pool_update r f
  have hcode : (hh.update htables hf).fixture.code = hh.fixture.code := by
    funext s o
    exact propext (and_congr_right fun ho => get?_update_iff hf ho)
  unfold fixture at hcode ⊢
  congr 1

end Heap.Composed

/-! Tables of objects that are alike. -/

theorem Object.Alike.tables_left {ρ : Renaming} {o o' : Object} (h : ρ.Alike o o') :
    ∀ t ∈ o.tables, t.InOrder ρ.left.pool := by
  cases h with
  | cls h =>
    exact inOrder_cls h.methods.left h.staticMethods.left h.defaults.left h.statics.left
  | inst _ hfields => exact List.forall_mem_singleton.2 hfields.left
  | dict _ htable => exact List.forall_mem_singleton.2 htable.left
  | switch hcases _ _ => exact List.forall_mem_singleton.2 hcases.left
  | _ => exact List.forall_mem_nil _

theorem Object.Alike.tables_right {ρ : Renaming} {o o' : Object} (h : ρ.Alike o o') :
    ∀ t ∈ o'.tables, t.InOrder ρ.right.pool := by
  cases h with
  | cls h =>
    exact inOrder_cls h.methods.right h.staticMethods.right h.defaults.right h.statics.right
  | inst _ hfields => exact List.forall_mem_singleton.2 hfields.right
  | dict _ htable => exact List.forall_mem_singleton.2 htable.right
  | switch hcases _ _ => exact List.forall_mem_singleton.2 hcases.right
  | _ => exact List.forall_mem_nil _

namespace Renaming

variable {ρ σ : Renaming}

/-- One pair more, over heaps that have more. -/
def extend (ρ : Renaming) (r s : Ref) {left right : Fixture} (hleft : ρ.left ≤ left)
    (hright : ρ.right ≤ right) (hfunctional : ∀ s', ρ.pairs r s' → s' = s)
    (hinjective : ∀ r', ρ.pairs r' s → r' = r) (hkinds : r.isText = s.isText)
    (htexts : ∀ i j, r = .text i → s = .text j →
      ∃ t, left.pool.arena.get? i = some t ∧ right.pool.arena.get? j = some t) : Renaming where
  left := left
  right := right
  pairs a b := ρ.pairs a b ∨ a = r ∧ b = s
  functional := by
    rintro a b b' (hb | ⟨rfl, rfl⟩) (hb' | ⟨ha, rfl⟩)
    · exact ρ.functional hb hb'
    · subst ha
      exact hfunctional b hb
    · exact (hfunctional b' hb').symm
    · rfl
  injective := by
    rintro a a' b (ha | ⟨rfl, rfl⟩) (ha' | ⟨rfl, hb⟩)
    · exact ρ.injective ha ha'
    · subst hb
      exact hinjective a ha
    · exact (hinjective a' ha').symm
    · rfl
  kinds := by
    rintro a b (hab | ⟨rfl, rfl⟩)
    · exact ρ.kinds hab
    · exact hkinds
  texts := by
    rintro i j (hij | ⟨hi, hj⟩)
    · obtain ⟨t, ht, ht'⟩ := ρ.texts hij
      exact ⟨t, hleft.texts ht, hright.texts ht'⟩
    · exact htexts i j hi.symm hj.symm

/-- The two heaps are the same but for the renaming. -/
structure Holds (ρ : Renaming) (h k : Heap) : Prop where
  left : h.Composed
  right : k.Composed
  leftFixture : ρ.left = left.fixture
  rightFixture : ρ.right = right.fixture
  objects : ∀ {i j}, ρ.pairs (.object i) (.object j) →
    ∃ o o', h.get? (.object i) = some o ∧ k.get? (.object j) = some o' ∧ ρ.Alike o o'

namespace Holds

variable {h k h' k' : Heap} {r s : Ref} {o o' : Object}

theorem leftPool (hh : ρ.Holds h k) : h.pool = ρ.left.pool := by
  rw [hh.leftFixture]
  rfl

theorem rightPool (hh : ρ.Holds h k) : k.pool = ρ.right.pool := by
  rw [hh.rightFixture]
  rfl

/-- Paired references lead to objects that are alike, or to texts. -/
theorem get?_cases (hh : ρ.Holds h k) (hrs : ρ.pairs r s) :
    (∃ i j, r = .text i ∧ s = .text j) ∨ ∃ i j o o', r = .object i ∧ s = .object j ∧
      h.get? r = some o ∧ k.get? s = some o' ∧ ρ.Alike o o' := by
  have hkind := ρ.kinds hrs
  cases r with
  | object i =>
    cases s with
    | object j =>
      obtain ⟨o, o', ho, ho', hoo⟩ := hh.objects hrs
      exact Or.inr ⟨i, j, o, o', rfl, rfl, ho, ho', hoo⟩
    | text j => cases hkind
  | text i =>
    cases s with
    | object j => cases hkind
    | text j => exact Or.inl ⟨i, j, rfl, rfl⟩

theorem get? (hh : ρ.Holds h k) (hrs : ρ.pairs r s) : ρ.Alike (h.get? r) (k.get? s) := by
  rcases hh.get?_cases hrs with ⟨i, j, rfl, rfl⟩ | ⟨i, j, o, o', -, -, ho, ho', hoo⟩
  · exact .none
  · rw [ho, ho']
    exact .some hoo

/-- The new objects in both heaps are paired. -/
theorem alloc (hh : ρ.Holds h k) (hoo : ρ.Alike o o')
    (hcode : ∀ c, o = .closure c → h.get? c.function = some (.function c.proto))
    (hcode' : ∀ c, o' = .closure c → k.get? c.function = some (.function c.proto)) :
    ∃ σ, ρ ≤ σ ∧ σ.Holds (h.alloc o).2 (k.alloc o').2 ∧ σ.pairs (h.alloc o).1 (k.alloc o').1 := by
  have hfresh {s : Ref} (hs : ρ.pairs (h.alloc o).1 s) : False := by
    rcases hh.get?_cases hs with ⟨i, j, hi, -⟩ | ⟨i, j, o₁, -, hi, -, ho₁, -⟩
    · cases hi
    · exact Heap.ne_alloc_of_get? hh.left.wellFormed o ho₁ rfl
  have hfresh' {r : Ref} (hr : ρ.pairs r (k.alloc o').1) : False := by
    rcases hh.get?_cases hr with ⟨i, j, -, hj⟩ | ⟨i, j, -, o₁, -, hj, -, ho₁, -⟩
    · cases hj
    · exact Heap.ne_alloc_of_get? hh.right.wellFormed o' ho₁ rfl
  have htables : ∀ t ∈ o.tables, t.InOrder h.pool := by
    rw [hh.leftPool]
    exact hoo.tables_left
  have htables' : ∀ t ∈ o'.tables, t.InOrder k.pool := by
    rw [hh.rightPool]
    exact hoo.tables_right
  have hleft : ρ.left ≤ (hh.left.alloc htables hcode).fixture :=
    hh.leftFixture.trans_le (hh.left.fixture_le_alloc htables hcode)
  have hright : ρ.right ≤ (hh.right.alloc htables' hcode').fixture :=
    hh.rightFixture.trans_le (hh.right.fixture_le_alloc htables' hcode')
  let σ := ρ.extend (h.alloc o).1 (k.alloc o').1 hleft hright (fun _ hs => (hfresh hs).elim)
    (fun _ hr => (hfresh' hr).elim) rfl (fun _ _ hi => by cases hi)
  have hle : ρ ≤ σ := ⟨Or.inl, hleft, hright⟩
  refine ⟨σ, hle, ⟨hh.left.alloc htables hcode, hh.right.alloc htables' hcode', rfl, rfl, ?_⟩,
    Or.inr ⟨rfl, rfl⟩⟩
  rintro i j (hij | ⟨hi, hj⟩)
  · obtain ⟨o₁, o₂, ho₁, ho₂, hoo₁⟩ := hh.objects hij
    exact ⟨o₁, o₂, hh.left.wellFormed.get?_alloc_of_get? o ho₁,
      hh.right.wellFormed.get?_alloc_of_get? o' ho₂,
      hoo₁.mono hle⟩
  · refine ⟨o, o', ?_, ?_, hoo.mono hle⟩
    · rw [Heap.get?_alloc hh.left.wellFormed, if_pos hi]
    · rw [Heap.get?_alloc hh.right.wellFormed, if_pos hj]

/-- The references of one text in both heaps are paired. -/
theorem intern (hh : ρ.Holds h k) (text : String) :
    ∃ σ, ρ ≤ σ ∧ σ.Holds (h.intern text).2 (k.intern text).2 ∧
      σ.pairs (h.intern text).1 (k.intern text).1 := by
  have hleft : ρ.left ≤ (hh.left.intern text).fixture :=
    hh.leftFixture.trans_le (hh.left.fixture_le_intern text)
  have hright : ρ.right ≤ (hh.right.intern text).fixture :=
    hh.rightFixture.trans_le (hh.right.fixture_le_intern text)
  have hnew := hh.left.wellFormed.pool.get?_intern_self text
  have hnew' := hh.right.wellFormed.pool.get?_intern_self text
  -- The text may be in a pair already; then it is the pair of the two references given.
  have hfunctional (s' : Ref) (hs' : ρ.pairs (h.intern text).1 s') : s' = (k.intern text).1 := by
    have hkind := ρ.kinds hs'
    cases s' with
    | object j => cases hkind
    | text j =>
      obtain ⟨t, ht, ht'⟩ := ρ.texts hs'
      obtain rfl := Option.some.inj ((hleft.texts ht).symm.trans hnew)
      have hslot := (hh.right.intern text).wellFormed.pool.slot_unique (hright.texts ht') hnew' rfl
      exact congrArg Ref.text hslot
  have hinjective (r' : Ref) (hr' : ρ.pairs r' (k.intern text).1) : r' = (h.intern text).1 := by
    have hkind := ρ.kinds hr'
    cases r' with
    | object i => cases hkind
    | text i =>
      obtain ⟨t, ht, ht'⟩ := ρ.texts hr'
      obtain rfl := Option.some.inj ((hright.texts ht').symm.trans hnew')
      have hslot := (hh.left.intern text).wellFormed.pool.slot_unique (hleft.texts ht) hnew rfl
      exact congrArg Ref.text hslot
  let σ := ρ.extend (h.intern text).1 (k.intern text).1 hleft hright hfunctional hinjective rfl
    (by
      rintro i j ⟨⟩ ⟨⟩
      exact ⟨_, hnew, hnew'⟩)
  have hle : ρ ≤ σ := ⟨Or.inl, hleft, hright⟩
  refine ⟨σ, hle, ⟨hh.left.intern text, hh.right.intern text, rfl, rfl, ?_⟩, Or.inr ⟨rfl, rfl⟩⟩
  rintro i j (hij | ⟨hi, -⟩)
  · obtain ⟨o, o', ho, ho', hoo⟩ := hh.objects hij
    exact ⟨o, o', ho, ho', hoo.mono hle⟩
  · cases hi

/-- A change of paired objects to objects that are alike. -/
theorem update (hh : ρ.Holds h k) (hrs : ρ.pairs r s) {f g : Object → Object}
    (hfg : ∀ o o', h.get? r = some o → k.get? s = some o' → ρ.Alike o o' → ρ.Alike (f o) (g o'))
    (hf : ∀ o, h.get? r = some o → Object.LeavesCode f o)
    (hg : ∀ o, k.get? s = some o → Object.LeavesCode g o) :
    ρ.Holds (h.update r f) (k.update s g) := by
  have hchanged : ρ.Alike ((h.get? r).map f) ((k.get? s).map g) := by
    rcases hh.get?_cases hrs with ⟨i, j, rfl, rfl⟩ | ⟨i, j, o, o', -, -, ho, ho', hoo⟩
    · exact .none
    · rw [ho, ho']
      exact .some (hfg o o' ho ho' hoo)
  have htables (o : Object) (ho : h.get? r = some o) : ∀ t ∈ (f o).tables, t.InOrder h.pool := by
    rw [ho] at hchanged
    rw [hh.leftPool]
    generalize (k.get? s).map g = p? at hchanged
    cases hchanged with
    | some hoo => exact hoo.tables_left
  have htables' (o : Object) (ho : k.get? s = some o) : ∀ t ∈ (g o).tables, t.InOrder k.pool := by
    rw [ho] at hchanged
    rw [hh.rightPool]
    generalize (h.get? r).map f = p? at hchanged
    cases hchanged with
    | some hoo => exact hoo.tables_right
  refine ⟨hh.left.update htables hf, hh.right.update htables' hg, ?_, ?_, ?_⟩
  · rw [hh.leftFixture, hh.left.fixture_update htables hf]
  · rw [hh.rightFixture, hh.right.fixture_update htables' hg]
  · intro i j hij
    obtain ⟨o, o', ho, ho', hoo⟩ := hh.objects hij
    rw [Heap.get?_update, Heap.get?_update, ho, ho']
    by_cases hr : r = .object i
    · have hs : s = .object j := ρ.functional hrs (hr ▸ hij)
      subst hr hs
      rw [if_pos rfl, if_pos rfl]
      exact ⟨f o, g o', rfl, rfl, hfg o o' ho ho' hoo⟩
    · have hs : s ≠ .object j := fun hs => hr (ρ.injective hrs (hs ▸ hij))
      rw [if_neg hr, if_neg hs]
      exact ⟨o, o', rfl, rfl, hoo⟩

end Holds

end Renaming

/-- Of one heap another keeps what is in a set, without moving it, and it has no text of its own. -/
structure Heap.Keeps (K : Ref → Prop) (h h' : Heap) : Prop where
  composed : h'.Composed
  objects : ∀ i, K (.object i) → h'.get? (.object i) = h.get? (.object i)
  texts : ∀ i t, h'.pool.arena.get? i = some t → h.pool.arena.get? i = some t
  held : ∀ i t, K (.text i) → h.pool.arena.get? i = some t → h'.pool.arena.get? i = some t

theorem Heap.Keeps.narrows {K : Ref → Prop} {h h' : Heap} (hkeeps : h.Keeps K h')
    (hh : h.Composed) : hh.fixture.Narrows K hkeeps.composed.fixture where
  texts ht hu := Option.some.inj (ht.symm.trans (hkeeps.texts _ _ hu))
  code := by
    rintro (i | i) o hi ⟨ho, hget⟩
    · exact ⟨ho, (hkeeps.objects i hi).trans hget⟩
    · cases hget

/-- Objects in the set refer to the set only. -/
def Heap.ClosedUnder (h : Heap) (K : Ref → Prop) : Prop :=
  ∀ r o, K r → h.get? r = some o → ∀ s ∈ o.refs, K s

/-- The set has the constants of its closures too. -/
theorem Heap.ClosedUnder.constants {h : Heap} {K : Ref → Prop} (hclosed : h.ClosedUnder K)
    (hh : h.Composed) {r : Ref} {c : Closure} (hr : K r) (hc : h.get? r = some (.closure c)) :
    ∀ v ∈ c.proto.blob.constants, ∀ s ∈ v.refs, K s := by
  intro v hv s hs
  have hfunction := hclosed r _ hr hc c.function List.mem_cons_self
  refine hclosed _ _ hfunction (hh.closures r c hc) s ?_
  exact List.mem_flatMap.2 ⟨v, Array.mem_toList_iff.2 hv, hs⟩

theorem Heap.ClosedUnder.object_constants {h : Heap} {K : Ref → Prop} (hclosed : h.ClosedUnder K)
    (hh : h.Composed) {r : Ref} {o : Object} (hr : K r) (ho : h.get? r = some o) :
    ∀ v ∈ o.constants, ∀ s ∈ v.refs, K s := by
  cases o with
  | closure c => exact hclosed.constants hh hr ho
  | _ => exact fun v hv => by simp [Object.constants] at hv

namespace Renaming

variable {ρ : Renaming} {K L : Ref → Prop} {h k h' k' : Heap}

/-- What is left of a renaming when the heaps keep certain references only. -/
def restrict (ρ : Renaming) (K L : Ref → Prop) (hh : ρ.Holds h k) (hleft : h.Keeps K h')
    (hright : k.Keeps L k') : Renaming where
  left := hleft.composed.fixture
  right := hright.composed.fixture
  pairs r s := ρ.pairs r s ∧ K r ∧ L s
  functional hs hs' := ρ.functional hs.1 hs'.1
  injective hr hr' := ρ.injective hr.1 hr'.1
  kinds hrs := ρ.kinds hrs.1
  texts := by
    rintro i j ⟨hij, hi, hj⟩
    obtain ⟨t, ht, ht'⟩ := ρ.texts hij
    rw [← hh.leftPool] at ht
    rw [← hh.rightPool] at ht'
    exact ⟨t, hleft.held i t hi ht, hright.held j t hj ht'⟩

theorem narrows_restrict (hh : ρ.Holds h k) (hleft : h.Keeps K h') (hright : k.Keeps L k') :
    Narrows K L ρ (ρ.restrict K L hh hleft hright) where
  pairs hr hs hrs := ⟨hrs, hr, hs⟩
  left := by
    rw [hh.leftFixture]
    exact hleft.narrows hh.left
  right := by
    rw [hh.rightFixture]
    exact hright.narrows hh.right

theorem holds_restrict (hh : ρ.Holds h k) (hleft : h.Keeps K h') (hright : k.Keeps L k')
    (hK : h.ClosedUnder K) (hL : k.ClosedUnder L) :
    (ρ.restrict K L hh hleft hright).Holds h' k' where
  left := hleft.composed
  right := hright.composed
  leftFixture := rfl
  rightFixture := rfl
  objects := by
    rintro i j ⟨hij, hi, hj⟩
    obtain ⟨o, o', ho, ho', hoo⟩ := hh.objects hij
    refine ⟨o, o', (hleft.objects i hi).trans ho, (hright.objects j hj).trans ho', ?_⟩
    exact hoo.narrow (narrows_restrict hh hleft hright) (hK _ o hi ho) (hL _ o' hj ho')
      (hK.object_constants hh.left hi ho) (hL.object_constants hh.right hj ho')

end Renaming

end ScriptMachine
