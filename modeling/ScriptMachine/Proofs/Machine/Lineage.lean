import ScriptMachine.Proofs.Heap.Walks
import ScriptMachine.Proofs.Machine.Births

/-!
Lineages of classes. A class is rooted if its superclasses end at a class without one. Every search
along the superclasses of a rooted class ends. Storing, interning, changing and collecting objects
keep all classes rooted as long as no class gets another superclass; a class may get a superclass
exactly if the superclass does not descend from it.
-/

namespace ScriptMachine

namespace Object

/-- The superclass of an object, if the object is a class. -/
def parent? : Object → Option (Option Ref)
  | cls c => some c.superclass
  | _ => none

/-- What an object binds, if it is a bound method. -/
def method? : Object → Option Value
  | bound b => some b.method
  | _ => none

/-- What a search goes on to from an object. -/
def links (o : Object) : Option (Option Ref) × Option Value := (o.parent?, o.method?)

/-- No search goes on from the object. -/
def Loose (o : Object) : Prop := (∀ s, o.parent? ≠ some (some s)) ∧ o.method? = none

end Object

namespace Heap

variable {h h' : Heap} {r s : Ref} {α : Type}

/-- The superclass of what is behind a reference, if that is a class. -/
def parent? (h : Heap) (r : Ref) : Option (Option Ref) := (h.class? r).map Class.superclass

/-- The superclasses of a class end at a class without one. -/
inductive Rooted (h : Heap) : Ref → Prop where
  | root {r : Ref} (hr : h.parent? r = some none) : Rooted h r
  | child {r s : Ref} (hr : h.parent? r = some (some s)) (hs : Rooted h s) : Rooted h r

/-- A heap at rest in which every class is rooted. -/
structure Lineal (h : Heap) : Prop where
  wellFormed : h.WellFormed
  rest : h.AtRest
  rooted : ∀ r c, h.class? r = some c → h.Rooted r

/-! Superclasses. -/

theorem parent?_eq_bind (h : Heap) (r : Ref) : h.parent? r = (h.get? r).bind Object.parent? := by
  unfold parent? class?
  cases h.get? r with
  | none => rfl
  | some o => cases o <;> rfl

theorem parent?_eq_some {parent : Option Ref} :
    h.parent? r = some parent ↔ ∃ c, h.class? r = some c ∧ c.superclass = parent :=
  Option.map_eq_some_iff

theorem class?_eq_some {c : Class} : h.class? r = some c ↔ h.get? r = some (.cls c) := by
  unfold class?
  cases h.get? r with
  | none => simp
  | some o => cases o <;> simp

theorem superclass?_eq_some : h.superclass? r = some s ↔ h.parent? r = some (some s) := by
  rw [parent?_eq_some]
  exact Option.bind_eq_some_iff

theorem Lineal.rooted_of_parent? (hh : h.Lineal) {parent : Option Ref}
    (hr : h.parent? r = some parent) : h.Rooted r := by
  obtain ⟨c, hc, -⟩ := parent?_eq_some.1 hr
  exact hh.rooted r c hc

theorem lineal_of_parents (hwf : h.WellFormed) (hrest : h.AtRest)
    (hrooted : ∀ r parent, h.parent? r = some parent → h.Rooted r) : h.Lineal :=
  ⟨hwf, hrest, fun r c hc => hrooted r c.superclass (parent?_eq_some.2 ⟨c, hc, rfl⟩)⟩

/-- A class stays rooted if no class loses its superclass. -/
theorem Rooted.mono (hkept : ∀ r parent, h.parent? r = some parent → h'.parent? r = some parent)
    (hr : h.Rooted r) : h'.Rooted r := by
  induction hr with
  | root hr => exact .root (hkept _ _ hr)
  | child hr _ ih => exact .child (hkept _ _ hr) ih

theorem Rooted.exists_ends (hr : h.Rooted r) : ∃ n, Walk.Ends h.superclass? n r := by
  induction hr with
  | root hr =>
    refine ⟨0, .stop ?_⟩
    obtain ⟨c, hc, hsuper⟩ := parent?_eq_some.1 hr
    rw [superclass?, hc, Option.bind_some, hsuper]
  | child hr _ ih =>
    obtain ⟨n, hn⟩ := ih
    exact ⟨n + 1, .step (superclass?_eq_some.2 hr) hn⟩

/-! Searches. -/

theorem Rooted.climb_ne_endless (hr : h.Rooted r) (pick : Ref → Class → Option α) :
    h.climb pick h.chainLimit r ≠ .endless := by
  induction hr with
  | root hr =>
    obtain ⟨c, hc, hsuper⟩ := parent?_eq_some.1 hr
    unfold chainLimit climb
    simp only [hc, hsuper]
    split <;> nofun
  | child hr _ ih =>
    obtain ⟨c, hc, hsuper⟩ := parent?_eq_some.1 hr
    -- one more step makes no difference, and it is the one to the superclass
    rw [climb_eq_of_le pick (Nat.le_succ _), climb]
    simp only [hc, hsuper]
    split
    · nofun
    · exact ih

theorem Rooted.reaches_ne_endless (hr : h.Rooted r) (target : Ref) :
    h.reaches target h.chainLimit r ≠ .endless := by
  induction hr with
  | root hr =>
    obtain ⟨c, hc, hsuper⟩ := parent?_eq_some.1 hr
    unfold chainLimit reaches
    simp only [hc, Option.bind_some, hsuper]
    split <;> simp
  | child hr _ ih =>
    obtain ⟨c, hc, hsuper⟩ := parent?_eq_some.1 hr
    rw [reaches_eq_of_le target (Nat.le_succ _), reaches]
    simp only [hc, Option.bind_some, hsuper]
    split
    · simp
    · exact ih

theorem Rooted.chain_ne_none (hr : h.Rooted r) : h.chain h.chainLimit r ≠ none := by
  induction hr with
  | root hr =>
    obtain ⟨c, hc, hsuper⟩ := parent?_eq_some.1 hr
    unfold chainLimit chain
    simp only [hc, hsuper]
    exact Option.some_ne_none _
  | child hr _ ih =>
    obtain ⟨c, hc, hsuper⟩ := parent?_eq_some.1 hr
    rw [chain_eq_of_le (Nat.le_succ _), chain]
    simp only [hc, hsuper]
    simpa using ih

/-- What makes an action endless: the superclasses of a class run in a circle, or what a bound method
binds does. -/
def Circular (h : Heap) : Prop :=
  (∃ r c, h.class? r = some c ∧ ¬ h.Rooted r) ∨ ∃ v, h.unbind h.linkLimit none v = none

/-- A search that starts at no class does not begin, so an endless one starts at a class. -/
theorem circular_of_climb {pick : Ref → Class → Option α}
    (hclimb : h.climb pick h.chainLimit r = .endless) : h.Circular := by
  cases hc : h.class? r with
  | none =>
    rw [chainLimit, climb] at hclimb
    simp [hc] at hclimb
  | some c => exact Or.inl ⟨r, c, hc, fun hr => hr.climb_ne_endless pick hclimb⟩

theorem circular_of_reaches {target : Ref}
    (hreaches : h.reaches target h.chainLimit r = .endless) : h.Circular := by
  cases hc : h.class? r with
  | none =>
    rw [chainLimit, reaches] at hreaches
    simp only [hc, Option.bind_none] at hreaches
    split at hreaches <;> cases hreaches
  | some c => exact Or.inl ⟨r, c, hc, fun hr => hr.reaches_ne_endless target hreaches⟩

theorem circular_of_initialFields? (hfields : h.initialFields? r = none) : h.Circular := by
  have hchain : h.chain h.chainLimit r = none := Option.map_eq_none_iff.1 hfields
  cases hc : h.class? r with
  | none =>
    rw [chainLimit, chain] at hchain
    simp [hc] at hchain
  | some c => exact Or.inl ⟨r, c, hc, fun hr => hr.chain_ne_none hchain⟩

theorem circular_of_isInstanceOf {v : Value} {target : Ref}
    (hinstance : h.isInstanceOf v target = .endless) : h.Circular := by
  unfold isInstanceOf at hinstance
  split at hinstance
  · cases hinstance
  · exact circular_of_reaches hinstance

/-! What keeps all classes rooted. -/

theorem parent?_alloc (hwf : h.WellFormed) (o : Object) (s : Ref) :
    (h.alloc o).2.parent? s = if s = (h.alloc o).1 then o.parent? else h.parent? s := by
  simp only [parent?_eq_bind, get?_alloc hwf]
  split <;> rfl

theorem parent?_update (r : Ref) (f : Object → Object) (s : Ref) :
    (h.update r f).parent? s =
      if r = s then (h.get? s).bind fun o => (f o).parent? else h.parent? s := by
  simp only [parent?_eq_bind, get?_update]
  split
  · cases h.get? s <;> rfl
  · rfl

/-- What is stored is no class, or a class whose superclass is rooted. -/
theorem Lineal.alloc (hh : h.Lineal) {o : Object}
    (ho : ∀ s, o.parent? = some (some s) → h.Rooted s) : (h.alloc o).2.Lineal := by
  have hparent := parent?_alloc hh.wellFormed o
  have hold {r : Ref} (hr : h.Rooted r) : (h.alloc o).2.Rooted r := by
    refine hr.mono fun s parent hs => ?_
    have hs' := hs
    rw [parent?_eq_bind] at hs'
    obtain ⟨old, hget, -⟩ := Option.bind_eq_some_iff.1 hs'
    rw [hparent, if_neg (ne_alloc_of_get? hh.wellFormed o hget), hs]
  refine lineal_of_parents (hh.wellFormed.alloc o) (hh.rest.alloc hh.wellFormed o) ?_
  intro r parent hr
  have hr' := hr
  rw [hparent] at hr'
  split at hr'
  · cases parent with
    | none => exact .root hr
    | some s => exact .child hr (hold (ho s hr'))
  · exact hold (hh.rooted_of_parent? hr')

theorem Lineal.intern (hh : h.Lineal) (text : String) : (h.intern text).2.Lineal where
  wellFormed := hh.wellFormed.intern text
  rest := hh.rest.intern hh.wellFormed text
  rooted r c hc := Rooted.mono (h := h) (fun _ _ hs => hs) (hh.rooted r c hc)

/-- A change that makes no class and gives none another superclass. -/
theorem Lineal.update (hh : h.Lineal) {f : Object → Object}
    (hf : ∀ o, h.get? r = some o → (f o).parent? = o.parent?) : (h.update r f).Lineal := by
  have hparent (s : Ref) : (h.update r f).parent? s = h.parent? s := by
    rw [parent?_update]
    split
    · next heq =>
      rw [parent?_eq_bind, ← heq]
      cases ho : h.get? r with
      | none => rfl
      | some o => exact hf o ho
    · rfl
  refine lineal_of_parents (hh.wellFormed.update r f) (hh.rest.update r f) ?_
  intro s parent hs
  rw [hparent] at hs
  exact (hh.rooted_of_parent? hs).mono fun t parent ht => (hparent t).trans ht

/-- A class is held by its subclasses, so a collection leaves lineages whole. -/
theorem Lineal.collect (hh : h.Lineal) (roots : List Ref) : (h.collect roots).2.Lineal := by
  have hcollected := hh.rest.collected roots
  have hparent {r : Ref} {parent : Option Ref} (hr : h.parent? r = some parent)
      (hreach : Reachable h roots r) : (h.collect roots).2.parent? r = some parent := by
    rw [parent?_eq_bind] at hr ⊢
    obtain ⟨o, ho, hparent⟩ := Option.bind_eq_some_iff.1 hr
    rw [hcollected.get?_iff.2 ⟨ho, hreach⟩, Option.bind_some, hparent]
  have hrooted {r : Ref} (hr : h.Rooted r) (hreach : Reachable h roots r) :
      (h.collect roots).2.Rooted r := by
    induction hr with
    | root hr => exact .root (hparent hr hreach)
    | @child r s hr _ ih =>
      obtain ⟨c, hc, hsuper⟩ := parent?_eq_some.1 hr
      have hmem : s ∈ (Object.cls c).refs := by simp [Object.refs, hsuper]
      exact .child (hparent hr hreach) (ih (hreach.step (class?_eq_some.1 hc) hmem))
  refine lineal_of_parents (hh.wellFormed.collect roots) hcollected.rest ?_
  intro r parent hr
  rw [parent?_eq_bind] at hr
  obtain ⟨o, ho, hr⟩ := Option.bind_eq_some_iff.1 hr
  obtain ⟨hold, hreach⟩ := hcollected.get?_iff.1 ho
  have hr' : h.parent? r = some parent := by rw [parent?_eq_bind, hold, Option.bind_some, hr]
  exact hrooted (hh.rooted_of_parent? hr') hreach

/-! A class gets a superclass. -/

/-- Whether a class is, or descends from, another one. -/
def Descends (h : Heap) (r target : Ref) : Prop := h.reaches target h.chainLimit r = .found ()

theorem descends_self (h : Heap) (r : Ref) : h.Descends r r := by
  unfold Descends chainLimit reaches
  rw [if_pos rfl]

theorem Descends.of_parent {target : Ref} (hs : h.Descends s target)
    (hr : h.parent? r = some (some s)) : h.Descends r target := by
  by_cases htarget : r = target
  · rw [htarget]
    exact descends_self h target
  · have hsuper : (h.class? r).bind Class.superclass = some s := superclass?_eq_some.2 hr
    unfold Descends at hs ⊢
    rw [reaches_eq_of_le target (Nat.le_succ _), reaches]
    simpa only [if_neg htarget, hsuper] using hs

/-- A class without superclass descends from no other. -/
theorem not_descends_of_root (hs : h.parent? s = some none) (hne : s ≠ r) : ¬ h.Descends s r := by
  have hsuper : (h.class? s).bind Class.superclass = none := by
    obtain ⟨c, hc, hnone⟩ := parent?_eq_some.1 hs
    rw [hc, Option.bind_some, hnone]
  unfold Descends chainLimit reaches
  rw [if_neg hne, hsuper]
  intro hreaches
  cases hreaches

theorem ne_of_not_descends (hfree : ¬ h.Descends s r) : s ≠ r := by
  rintro rfl
  exact hfree (descends_self h s)

/-- One class gets a superclass, and all others keep theirs. -/
structure Inherits (h : Heap) (r s : Ref) (h' : Heap) : Prop where
  self : h'.parent? r = some (some s)
  others : ∀ t, t ≠ r → h'.parent? t = h.parent? t

theorem Inherits.rooted (hinherits : h.Inherits r s h') {t : Ref} (ht : h.Rooted t)
    (hfree : ¬ h.Descends t r) : h'.Rooted t := by
  induction ht with
  | @root t ht =>
    exact .root ((hinherits.others t (ne_of_not_descends hfree)).trans ht)
  | @child t u ht _ ih =>
    have hu : h'.Rooted u := ih fun hu => hfree (hu.of_parent ht)
    exact .child ((hinherits.others t (ne_of_not_descends hfree)).trans ht) hu

/-- If the superclass descends from the class, the walk from it comes back to it. -/
theorem Inherits.ends (hinherits : h.Inherits r s h') {n k : Nat} {t : Ref}
    (hreaches : h.reaches r k t = .found ()) (hends : Walk.Ends h'.superclass? n t) :
    ∃ i ≤ n, Walk.Ends h'.superclass? i r := by
  induction k generalizing n t with
  | zero => cases hreaches
  | succ k ih =>
    by_cases ht : t = r
    · exact ⟨n, Nat.le_refl n, ht ▸ hends⟩
    · rw [reaches, if_neg ht] at hreaches
      split at hreaches
      · cases hreaches
      · next u hu =>
        have hparent : h'.superclass? t = some u := by
          rw [superclass?_eq_some, hinherits.others t ht, ← superclass?_eq_some]
          exact hu
        cases hends with
        | stop hnone =>
          rw [hparent] at hnone
          cases hnone
        | step hnext hends =>
          rw [hparent] at hnext
          obtain rfl := Option.some.inj hnext
          obtain ⟨i, hi, hr⟩ := ih hreaches hends
          exact ⟨i, Nat.le_succ_of_le hi, hr⟩

theorem Inherits.not_rooted (hinherits : h.Inherits r s h') (hdescends : h.Descends s r) :
    ¬ h'.Rooted r := by
  intro hr
  obtain ⟨n, hn⟩ := hr.exists_ends
  cases hn with
  | stop hnone =>
    rw [superclass?_eq_some.2 hinherits.self] at hnone
    cases hnone
  | @step n _ _ hnext hends =>
    have hsame := hnext
    rw [superclass?_eq_some.2 hinherits.self] at hsame
    obtain rfl := Option.some.inj hsame
    obtain ⟨i, hi, hback⟩ := hinherits.ends hdescends hends
    have hsteps := hback.unique (.step hnext hends)
    omega

/-- A class may inherit exactly from those that do not descend from it. -/
theorem Inherits.lineal_iff (hinherits : h.Inherits r s h') (hh : h.Lineal) (hs : h.Rooted s)
    (hwf : h'.WellFormed) (hrest : h'.AtRest) : h'.Lineal ↔ ¬ h.Descends s r := by
  constructor
  · intro hh' hdescends
    exact hinherits.not_rooted hdescends (hh'.rooted_of_parent? hinherits.self)
  · intro hfree
    have hself : h'.Rooted r := .child hinherits.self (hinherits.rooted hs hfree)
    have hall {t : Ref} (ht : h.Rooted t) : h'.Rooted t := by
      induction ht with
      | @root t ht =>
        by_cases hsame : t = r
        · exact hsame ▸ hself
        · exact .root ((hinherits.others t hsame).trans ht)
      | @child t _ ht _ ih =>
        by_cases hsame : t = r
        · exact hsame ▸ hself
        · exact .child ((hinherits.others t hsame).trans ht) ih
    refine lineal_of_parents hwf hrest fun t parent ht => ?_
    by_cases hsame : t = r
    · exact hsame ▸ hself
    · rw [hinherits.others t hsame] at ht
      exact hall (hh.rooted_of_parent? ht)

end Heap

end ScriptMachine
