import ScriptMachine.Proofs.Heap.Tracing

/-!
A heap between collections. Storing an object takes a vacant slot, interning a text gives its slot
or takes a vacant one, and a change leaves an object in its slot, so every slot that is occupied
stays occupied until the next collection.
-/

namespace ScriptMachine.Heap

/-- A well-formed heap between collections. -/
structure Tidy (h : Heap) : Prop where
  wellFormed : h.WellFormed
  rest : h.AtRest

variable {h : Heap}

/-! Objects and slots after one operation. -/

theorem get?_alloc (hwf : h.WellFormed) (o : Object) (s : Ref) :
    (h.alloc o).2.get? s = if s = (h.alloc o).1 then some o else h.get? s := by
  cases s with
  | object i =>
    have hget := hwf.objects.get?_allocate o o.footprint i
    simpa only [Heap.get?, alloc, Ref.object.injEq] using hget
  | text i => simp [Heap.get?, alloc]

theorem get?_alloc_self (hwf : h.WellFormed) (o : Object) :
    (h.alloc o).2.get? (h.alloc o).1 = some o := (get?_alloc hwf o _).trans (if_pos rfl)

theorem get?_alloc_or (h : Heap) (o : Object) (s : Ref) :
    (h.alloc o).2.get? s = some o ∨ (h.alloc o).2.get? s = h.get? s := by
  cases s with
  | text i => exact Or.inr rfl
  | object i => exact h.objects.get?_allocate_or o o.footprint i

theorem occupied_alloc (hwf : h.WellFormed) (o : Object) (s : Ref) :
    (h.alloc o).2.Occupied s ↔ s = (h.alloc o).1 ∨ h.Occupied s := by
  cases s with
  | object i =>
    have hget := hwf.objects.get?_allocate o o.footprint i
    simp only [Occupied, alloc, Ref.object.injEq, hget]
    by_cases hi : i = (h.objects.allocate o o.footprint).1
    · simp [hi]
    · simp [hi]
  | text i => simp [Occupied, alloc]

/-- A new object takes a vacant slot. -/
theorem not_occupied_alloc (hwf : h.WellFormed) (o : Object) : ¬ h.Occupied (h.alloc o).1 := by
  have hvacant := hwf.objects.allocate_vacant o o.footprint
  simp [Occupied, alloc, Arena.get?, hvacant]

theorem get?_intern (text : String) (s : Ref) : (h.intern text).2.get? s = h.get? s := rfl

theorem occupied_intern (hwf : h.WellFormed) (text : String) (s : Ref) :
    (h.intern text).2.Occupied s ↔ s = (h.intern text).1 ∨ h.Occupied s := by
  cases s with
  | object i => simp [Occupied, intern]
  | text i =>
    simp only [Occupied, intern, Ref.text.injEq]
    constructor
    · intro hocc
      rcases hwf.pool.cell?_intern text i with hsame | ⟨hi, -⟩
      · rw [Arena.get?, hsame] at hocc
        exact Or.inr hocc
      · exact Or.inl hi
    · rintro (rfl | hocc)
      · rw [hwf.pool.get?_intern_self, Option.isSome_some]
      · obtain ⟨x, hx⟩ := Option.isSome_iff_exists.1 hocc
        rw [hwf.pool.get?_intern text hx, Option.isSome_some]

theorem get?_update (r : Ref) (f : Object → Object) (s : Ref) :
    (h.update r f).get? s = if r = s then (h.get? s).map f else h.get? s := by
  cases r with
  | object i =>
    cases s with
    | object j => simpa only [Heap.get?, update, Ref.object.injEq] using h.objects.get?_modify i j f
    | text j => simp [Heap.get?]
  | text i =>
    cases s with
    | object j => simp [Heap.get?, update]
    | text j => simp [Heap.get?]

theorem pool_update (r : Ref) (f : Object → Object) : (h.update r f).pool = h.pool := by
  cases r <;> rfl

theorem occupied_update (r : Ref) (f : Object → Object) (s : Ref) :
    (h.update r f).Occupied s ↔ h.Occupied s := by
  cases r with
  | object i =>
    cases s with
    | object j =>
      simp only [Occupied, update, Arena.get?_modify]
      split <;> simp
    | text j => rfl
  | text i => rfl

theorem occupied_of_get? {s : Ref} {o : Object} (hs : h.get? s = some o) : h.Occupied s := by
  cases s with
  | object i => simp_all [Occupied, Heap.get?]
  | text i => cases hs

/-! What is stored, and a new object. -/

theorem ne_alloc_of_get? (hwf : h.WellFormed) (o : Object) {s : Ref} {o' : Object}
    (hs : h.get? s = some o') : s ≠ (h.alloc o).1 := by
  rintro rfl
  exact not_occupied_alloc hwf o (occupied_of_get? hs)

theorem get?_alloc_vacant (hwf : h.WellFormed) (o : Object) : h.get? (h.alloc o).1 = none := by
  by_contra hsome
  obtain ⟨o', ho'⟩ := Option.ne_none_iff_exists'.1 hsome
  exact ne_alloc_of_get? hwf o ho' rfl

theorem WellFormed.get?_alloc_of_get? (hwf : h.WellFormed) (o : Object) {s : Ref} {o' : Object}
    (hs : h.get? s = some o') : (h.alloc o).2.get? s = some o' := by
  rw [get?_alloc hwf, if_neg (ne_alloc_of_get? hwf o hs), hs]

/-! Well-formed heaps at rest stay so. -/

theorem WellFormed.alloc (hwf : h.WellFormed) (o : Object) : (h.alloc o).2.WellFormed :=
  ⟨hwf.objects.allocate o o.footprint, hwf.pool⟩

theorem WellFormed.intern (hwf : h.WellFormed) (text : String) : (h.intern text).2.WellFormed :=
  ⟨hwf.objects, hwf.pool.intern text⟩

theorem WellFormed.update (hwf : h.WellFormed) (r : Ref) (f : Object → Object) :
    (h.update r f).WellFormed := by
  cases r with
  | object i => exact ⟨hwf.objects.modify i f, hwf.pool⟩
  | text i => exact hwf

theorem AtRest.alloc (hrest : h.AtRest) (hwf : h.WellFormed) (o : Object) :
    (h.alloc o).2.AtRest where
  gray := hrest.gray
  objects i c hc := by
    have hcell := (hwf.objects.cell?_allocate o o.footprint i).symm.trans hc
    by_cases hi : i = (h.objects.allocate o o.footprint).1
    · rw [if_pos hi] at hcell
      rw [← Option.some.inj hcell]
    · rw [if_neg hi] at hcell
      exact hrest.objects i c hcell
  texts := hrest.texts

theorem AtRest.intern (hrest : h.AtRest) (hwf : h.WellFormed) (text : String) :
    (h.intern text).2.AtRest where
  gray := hrest.gray
  objects := hrest.objects
  texts i c hc := by
    rcases hwf.pool.cell?_intern text i with hsame | ⟨-, d, hd, hwhite⟩
    · exact hrest.texts i c (hsame.symm.trans hc)
    · rw [← hwhite, ← Option.some.inj (hd.symm.trans hc)]

theorem AtRest.update (hrest : h.AtRest) (r : Ref) (f : Object → Object) :
    (h.update r f).AtRest := by
  cases r with
  | text i => exact hrest
  | object i =>
    refine ⟨hrest.gray, ?_, hrest.texts⟩
    intro j c hc
    have hcell := (h.objects.cell?_modifyCell i j _).symm.trans hc
    by_cases hij : i = j
    · rw [if_pos hij] at hcell
      obtain ⟨d, hd, rfl⟩ := Option.map_eq_some_iff.1 hcell
      exact hrest.objects j d hd
    · rw [if_neg hij] at hcell
      exact hrest.objects j c hcell

/-! Texts. -/

theorem text?_intern (hwf : h.WellFormed) (other : String) {v : Value} {text : String}
    (hv : h.text? v = some text) : (h.intern other).2.text? v = some text := by
  rcases v with _ | _ | _ | (i | i)
  case ref.text =>
    obtain ⟨x, hx, rfl⟩ := Option.map_eq_some_iff.1 hv
    have hkept : (h.intern other).2.pool.textOf? (.ref (.text i)) = some x :=
      hwf.pool.get?_intern other hx
    rw [text?, hkept]
    rfl
  all_goals cases hv

theorem occupied_of_text? {i : Nat} {text : String} (htext : h.text? (.ref (.text i)) = some text) :
    h.Occupied (.text i) := by
  obtain ⟨x, hx, -⟩ := Option.map_eq_some_iff.1 htext
  exact Option.isSome_of_eq_some hx

theorem text?_intern_self (hwf : h.WellFormed) (text : String) :
    (h.intern text).2.text? (.ref (h.intern text).1) = some text := by
  have hself : (h.intern text).2.pool.textOf? (.ref (h.intern text).1) =
      some ⟨text, Hash.text text⟩ := hwf.pool.get?_intern_self text
  rw [text?, hself]
  rfl

/-! Growth. -/

/-- What a heap becomes while nothing is released, with the references handed out on the way, the
newest first. -/
inductive Grows (h : Heap) : List Ref → Heap → Prop where
  | refl : Grows h [] h
  | alloc {created : List Ref} {h' : Heap} (hgrows : Grows h created h') (o : Object) :
      Grows h ((h'.alloc o).1 :: created) (h'.alloc o).2
  | intern {created : List Ref} {h' : Heap} (hgrows : Grows h created h') (text : String) :
      Grows h ((h'.intern text).1 :: created) (h'.intern text).2
  | update {created : List Ref} {h' : Heap} (hgrows : Grows h created h') (r : Ref)
      (f : Object → Object) : Grows h created (h'.update r f)

/-- Nothing that is occupied is given up, and what is newly occupied was handed out. -/
theorem Grows.occupied_iff {created : List Ref} {h' : Heap} (hgrows : Grows h created h')
    (hwf : h.WellFormed) :
    h'.WellFormed ∧ ∀ r, h'.Occupied r ↔ h.Occupied r ∨ r ∈ created := by
  induction hgrows with
  | refl => exact ⟨hwf, by simp⟩
  | @alloc created h' _ o ih =>
    obtain ⟨hwf', hocc⟩ := ih
    refine ⟨hwf'.alloc o, fun r => ?_⟩
    rw [occupied_alloc hwf', hocc, List.mem_cons]
    tauto
  | @intern created h' _ text ih =>
    obtain ⟨hwf', hocc⟩ := ih
    refine ⟨hwf'.intern text, fun r => ?_⟩
    rw [occupied_intern hwf', hocc, List.mem_cons]
    tauto
  | @update created h' _ r f ih =>
    obtain ⟨hwf', hocc⟩ := ih
    refine ⟨hwf'.update r f, fun s => ?_⟩
    rw [occupied_update, hocc]

end ScriptMachine.Heap
