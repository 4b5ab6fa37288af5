import ScriptMachine.Proofs.Machine.Lineage
import ScriptMachine.Proofs.Machine.Sessions

/-!
Bound methods. A method is bound when what it binds is there already, and what it binds stays for as
long as it does, so bound methods bind something else in the end. A vacant slot would be a way into a
circle, because a bound method may be stored in it.
-/

namespace ScriptMachine

theorem Object.mem_refs_of_method? {o : Object} {target : Value} (ho : o.method? = some target)
    {r : Ref} (hr : r ∈ target.refs) : r ∈ o.refs := by
  cases o with
  | bound b =>
    obtain rfl := Option.some.inj ho
    exact List.mem_append_right _ hr
  | _ => cases ho

namespace Heap

variable {h h' : Heap} {r : Ref} {v target : Value}

/-- What a value binds, if it is a bound method. -/
def method? (h : Heap) (v : Value) : Option Value := (h.object? v).bind Object.method?

/-- Following a value through bound methods ends at an occupied slot without one. -/
inductive Anchored (h : Heap) : Value → Prop where
  | plain {v : Value} (hoccupied : h.OccupiedValue v) (hv : h.method? v = none) : Anchored h v
  | bound {v target : Value} (hv : h.method? v = some target) (htarget : Anchored h target) :
      Anchored h v

/-- A heap at rest in which everything that is bound is anchored. -/
structure Bonded (h : Heap) : Prop where
  wellFormed : h.WellFormed
  rest : h.AtRest
  anchored : ∀ v target, h.method? v = some target → h.Anchored target

theorem method?_eq_some : h.method? v = some target ↔
    ∃ b, h.boundMethod? v = some b ∧ b.method = target := by
  unfold method? boundMethod?
  cases h.object? v with
  | none => simp
  | some o => cases o <;> simp [Object.method?]

theorem method?_ref (h : Heap) (r : Ref) : h.method? (.ref r) = (h.get? r).bind Object.method? := rfl

theorem method?_of_get? {o : Object} (hr : h.get? r = some o) (ho : o.method? = some target) :
    h.method? (.ref r) = some target := by rw [method?_ref, hr, Option.bind_some, ho]

theorem exists_ref_of_method? (hv : h.method? v = some target) :
    ∃ r o, v = .ref r ∧ h.get? r = some o ∧ o.method? = some target := by
  obtain ⟨o, ho, hmethod⟩ := Option.bind_eq_some_iff.1 hv
  cases v with
  | ref r => exact ⟨r, o, rfl, ho, hmethod⟩
  | _ => cases ho

theorem Bonded.anchored_of_occupied (hh : h.Bonded) (hv : h.OccupiedValue v) : h.Anchored v := by
  cases hmethod : h.method? v with
  | none => exact .plain hv hmethod
  | some target => exact .bound hmethod (hh.anchored v target hmethod)

theorem Anchored.unbind_ne_none (hv : h.Anchored v) (receiver? : Option Value) :
    h.unbind h.linkLimit receiver? v ≠ none := by
  induction hv generalizing receiver? with
  | @plain v _ hplain =>
    have hcallee (b : BoundMethod) : h.callee? v ≠ some (.bound b) := by
      intro hb
      rw [method?_eq_some.2 ⟨b, callee?_eq_bound.1 hb, rfl⟩] at hplain
      cases hplain
    unfold unbind
    split
    · next b hb => exact absurd hb (hcallee b)
    · nofun
  | bound hmethod _ ih =>
    obtain ⟨b, hb, rfl⟩ := method?_eq_some.1 hmethod
    -- one more step makes no difference, and it is the one to what is bound
    rw [unbind_eq_of_le (Nat.le_succ _), unbind, callee?_eq_bound.2 hb]
    exact ih _

/-- What starts at no bound method ends at once. -/
theorem Bonded.unbind_ne_none (hh : h.Bonded) (v : Value) : h.unbind h.linkLimit none v ≠ none := by
  cases hmethod : h.method? v with
  | some target => exact (Anchored.bound hmethod (hh.anchored v target hmethod)).unbind_ne_none none
  | none =>
    unfold unbind
    split
    · next b hb =>
      rw [method?_eq_some.2 ⟨b, callee?_eq_bound.1 hb, rfl⟩] at hmethod
      cases hmethod
    · nofun

theorem not_circular (hlineal : h.Lineal) (hbonded : h.Bonded) : ¬ h.Circular := by
  rintro (⟨r, c, hc, hunrooted⟩ | ⟨v, hv⟩)
  · exact hunrooted (hlineal.rooted r c hc)
  · exact hbonded.unbind_ne_none v hv

/-! What keeps bound methods anchored. -/

/-- What is anchored stays so if nothing it comes past changes. -/
theorem Anchored.mono (hoccupied : ∀ r, h.Occupied r → h'.Occupied r)
    (hkept : ∀ v, h.OccupiedValue v → h'.method? v = h.method? v) (hv : h.Anchored v) :
    h'.Anchored v := by
  induction hv with
  | plain hocc hplain =>
    exact .plain (fun r hr => hoccupied r (hocc r hr)) ((hkept _ hocc).trans hplain)
  | @bound v _ hmethod _ ih =>
    obtain ⟨r, o, rfl, ho, -⟩ := exists_ref_of_method? hmethod
    have hocc : h.OccupiedValue (.ref r) := by
      intro s hs
      rw [List.mem_singleton.1 hs]
      exact occupied_of_get? ho
    exact .bound ((hkept _ hocc).trans hmethod) ih

/-- What is stored is no bound method, or binds what is in an occupied slot. -/
theorem Bonded.alloc (hh : h.Bonded) {o : Object}
    (ho : ∀ target, o.method? = some target → h.OccupiedValue target) : (h.alloc o).2.Bonded := by
  have hoccupied (r : Ref) (hr : h.Occupied r) : (h.alloc o).2.Occupied r :=
    (occupied_alloc hh.wellFormed o r).2 (Or.inr hr)
  have hkept (v : Value) (hv : h.OccupiedValue v) : (h.alloc o).2.method? v = h.method? v := by
    cases v with
    | ref r =>
      have hne : r ≠ (h.alloc o).1 := by
        rintro rfl
        exact not_occupied_alloc hh.wellFormed o (hv _ (List.mem_singleton_self _))
      rw [method?_ref, method?_ref, get?_alloc hh.wellFormed, if_neg hne]
    | _ => rfl
  refine ⟨hh.wellFormed.alloc o, hh.rest.alloc hh.wellFormed o, fun v target hv => ?_⟩
  refine Anchored.mono hoccupied hkept ?_
  obtain ⟨r, o', rfl, ho', hmethod⟩ := exists_ref_of_method? hv
  rw [get?_alloc hh.wellFormed] at ho'
  split at ho'
  · obtain rfl := Option.some.inj ho'
    exact hh.anchored_of_occupied (ho target hmethod)
  · exact hh.anchored (.ref r) target (method?_of_get? ho' hmethod)

theorem Bonded.intern (hh : h.Bonded) (text : String) : (h.intern text).2.Bonded where
  wellFormed := hh.wellFormed.intern text
  rest := hh.rest.intern hh.wellFormed text
  anchored v target hv := by
    have hoccupied (r : Ref) (hr : h.Occupied r) : (h.intern text).2.Occupied r :=
      (occupied_intern hh.wellFormed text r).2 (Or.inr hr)
    exact (hh.anchored v target hv).mono hoccupied fun _ _ => rfl

/-- A change that makes no bound method and lets none bind anything else. -/
theorem Bonded.update (hh : h.Bonded) {f : Object → Object}
    (hf : ∀ o, h.get? r = some o → (f o).method? = o.method?) : (h.update r f).Bonded := by
  have hmethod (v : Value) : (h.update r f).method? v = h.method? v := by
    cases v with
    | ref s =>
      rw [method?_ref, method?_ref, get?_update]
      split
      · next heq =>
        subst heq
        cases ho : h.get? r with
        | none => rfl
        | some o => exact hf o ho
      · rfl
    | _ => rfl
  refine ⟨hh.wellFormed.update r f, hh.rest.update r f, fun v target hv => ?_⟩
  rw [hmethod] at hv
  exact (hh.anchored v target hv).mono (fun s hs => (occupied_update r f s).2 hs)
    fun u _ => hmethod u

/-- What is bound is held by the bound method, so a collection leaves it there. -/
theorem Bonded.collect (hh : h.Bonded) (roots : List Ref) : (h.collect roots).2.Bonded := by
  have hcollected := hh.rest.collected roots
  have hanchored {v : Value} (hv : h.Anchored v) (hreach : ∀ r ∈ v.refs, Reachable h roots r) :
      (h.collect roots).2.Anchored v := by
    induction hv with
    | @plain v hocc hplain =>
      refine .plain (fun r hr => hcollected.occupied_iff.2 ⟨hocc r hr, hreach r hr⟩) ?_
      rw [Option.eq_none_iff_forall_ne_some] at hplain ⊢
      intro target hmethod
      obtain ⟨r, o, rfl, ho, hbinds⟩ := exists_ref_of_method? hmethod
      exact hplain target (method?_of_get? (hcollected.get?_iff.1 ho).1 hbinds)
    | @bound v target hmethod _ ih =>
      obtain ⟨r, o, rfl, ho, hbinds⟩ := exists_ref_of_method? hmethod
      have hr := hreach r (List.mem_singleton_self r)
      have hkept := method?_of_get? (hcollected.get?_iff.2 ⟨ho, hr⟩) hbinds
      exact .bound hkept (ih fun s hs => hr.step ho (Object.mem_refs_of_method? hbinds hs))
  refine ⟨hh.wellFormed.collect roots, hcollected.rest, fun v target hv => ?_⟩
  obtain ⟨r, o, rfl, ho, hbinds⟩ := exists_ref_of_method? hv
  obtain ⟨hold, hreach⟩ := hcollected.get?_iff.1 ho
  exact hanchored (hh.anchored _ _ (method?_of_get? hold hbinds))
    fun s hs => hreach.step hold (Object.mem_refs_of_method? hbinds hs)

end Heap

end ScriptMachine
