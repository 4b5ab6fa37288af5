import ScriptMachine.Proofs.Machine.Lineage
import ScriptMachine.Proofs.Table.Lookups

/-!
The nearest class that has a name. A method, and the default of a property, is taken from the first
class upward whose table has the name. Such a search sees the row of classes and nothing else: the
defaults that a new instance gets are those it finds, and a change to a class that the row does not
pass makes no difference to it.
-/

namespace ScriptMachine

/-- The result of a search that ends. -/
def Search.ofOption {α : Type} : Option α → Search α
  | some a => .found a
  | none => .absent

namespace Heap

variable {h : Heap} {r s : Ref} {c : Class} {classes : List Class} {name : Value}

/-- The classes from a reference upward, the nearest first. The row ends at a class without
superclass, or before something that is no class. -/
inductive ChainOf (h : Heap) : Ref → List Class → Prop where
  | empty {r : Ref} (hr : h.class? r = none) : ChainOf h r []
  | root {r : Ref} {c : Class} (hc : h.class? r = some c) (hroot : c.superclass = none) :
      ChainOf h r [c]
  | child {r s : Ref} {c : Class} {rest : List Class} (hc : h.class? r = some c)
      (hsuper : c.superclass = some s) (hrest : ChainOf h s rest) : ChainOf h r (c :: rest)

/-- The entry of a name in one of the tables of a class or of the nearest superclass that has it. -/
def nearest (h : Heap) (table : Class → Table) (r : Ref) (name : Value) : Search Entry :=
  h.climb (fun _ c => Table.entry? (table c) h.pool name) h.chainLimit r

theorem findMethod_eq_nearest (h : Heap) (r : Ref) (name : Value) :
    h.findMethod r name = h.nearest Class.methods r name := rfl

/-! Rows of classes. -/

theorem ChainOf.class?_eq {rest : List Class} (hchain : h.ChainOf r (c :: rest)) :
    h.class? r = some c := by
  cases hchain with
  | root hc _ => exact hc
  | child hc _ _ => exact hc

theorem ChainOf.exists_class? (hchain : h.ChainOf r classes) (hc : c ∈ classes) :
    ∃ s, h.class? s = some c := by
  induction hchain with
  | empty _ => cases hc
  | @root r _ hr _ =>
    obtain rfl := List.mem_singleton.1 hc
    exact ⟨r, hr⟩
  | @child r _ _ _ hr _ _ ih =>
    rcases List.mem_cons.1 hc with rfl | hc
    · exact ⟨r, hr⟩
    · exact ih hc

theorem ChainOf.chain_eq (hchain : h.ChainOf r classes) :
    h.chain h.chainLimit r = some classes := by
  induction hchain with
  | empty hr => simp only [chainLimit, chain, hr]
  | root hc hroot => simp only [chainLimit, chain, hc, hroot]
  | child hc hsuper _ ih =>
    -- one more step makes no difference, and it is the one to the superclass
    rw [chain_eq_of_le (Nat.le_succ _), chain]
    simp only [hc, hsuper, ih, Option.map_some]

/-- A class has what its own table has, and the rest from its superclass. -/
theorem nearest_of_class? (hc : h.class? r = some c) (table : Class → Table) (name : Value) :
    h.nearest table r name =
      match Table.entry? (table c) h.pool name with
      | some e => .found e
      | none =>
        match c.superclass with
        | none => .absent
        | some s => h.nearest table s name := by
  unfold nearest
  rw [climb_eq_of_le _ (Nat.le_succ _), climb]
  simp only [hc]
  cases Table.entry? (table c) h.pool name with
  | some e => rfl
  | none => cases c.superclass <;> rfl

/-- The defaults of a row of classes that are stored one over the other, the farthest class first,
show those of the nearest class. -/
theorem ChainOf.initialFields? (hchain : h.ChainOf r classes) (hp : h.pool.WellFormed)
    (htables : ∀ c ∈ classes, c.defaults.InOrder h.pool) :
    ∃ fields, h.initialFields? r = some fields ∧ fields.InOrder h.pool ∧
      ∀ name, fields.entry? h.pool name =
        classes.findSome? fun c => c.defaults.entry? h.pool name := by
  obtain ⟨hordered, hentry⟩ := Table.entry?_foldr_addAll hp Class.defaults htables
  refine ⟨_, ?_, hordered, hentry⟩
  unfold Heap.initialFields?
  rw [hchain.chain_eq, Option.map_some, List.foldl_reverse]

/-! A change to a class. -/

/-- A search ends as in another heap if each class has the same for it and the same superclass. -/
theorem climb_congr {α : Type} {h' : Heap} {pick pick' : Ref → Class → Option α}
    (hsame : ∀ s, (h'.class? s).map (fun c => (pick' s c, c.superclass)) =
      (h.class? s).map fun c => (pick s c, c.superclass)) (fuel : Nat) (s : Ref) :
    h'.climb pick' fuel s = h.climb pick fuel s := by
  induction fuel generalizing s with
  | zero => rfl
  | succ fuel ih =>
    have hs := hsame s
    rw [climb, climb]
    cases hc : h.class? s with
    | none =>
      rw [hc, Option.map_none, Option.map_eq_none_iff] at hs
      rw [hs]
    | some c =>
      rw [hc, Option.map_some, Option.map_eq_some_iff] at hs
      obtain ⟨c', hc', heq⟩ := hs
      obtain ⟨hpick, hsuper⟩ := Prod.mk.inj heq
      rw [hc']
      dsimp only
      rw [hpick, hsuper]
      cases pick s c with
      | some a => rfl
      | none =>
        cases c.superclass with
        | none => rfl
        | some t => exact ih t

theorem findMethod_congr {h' : Heap} (hlimit : h'.chainLimit = h.chainLimit)
    (hsame : ∀ s, (h'.class? s).map (fun c => (c.methods.entry? h'.pool name, c.superclass)) =
      (h.class? s).map fun c => (c.methods.entry? h.pool name, c.superclass)) (r : Ref) :
    h'.findMethod r name = h.findMethod r name := by
  unfold findMethod
  rw [hlimit]
  exact climb_congr hsame _ r

theorem chainLimit_update (h : Heap) (r : Ref) (f : Object → Object) :
    (h.update r f).chainLimit = h.chainLimit := by
  cases r with
  | object i => simp only [chainLimit, update, Arena.modify, Arena.modifyCell, Array.size_modify]
  | text i => rfl

theorem class?_update_of_ne {f : Object → Object} (hne : s ≠ r) :
    (h.update r f).class? s = h.class? s := by
  unfold class?
  rw [get?_update, if_neg (Ne.symm hne)]

/-- A search that does not pass a class ends as before the class was changed. -/
theorem climb_update {α : Type} {f : Object → Object} (pick : Ref → Class → Option α) {fuel : Nat}
    (hfree : h.reaches r fuel s ≠ .found ()) :
    (h.update r f).climb pick fuel s = h.climb pick fuel s := by
  induction fuel generalizing s with
  | zero => rfl
  | succ fuel ih =>
    have hne : s ≠ r := by
      rintro rfl
      rw [reaches, if_pos rfl] at hfree
      exact hfree rfl
    rw [reaches, if_neg hne] at hfree
    rw [climb, climb, class?_update_of_ne hne]
    cases hc : h.class? s with
    | none => rfl
    | some c =>
      dsimp only
      cases pick s c with
      | some a => rfl
      | none =>
        dsimp only
        cases hsuper : c.superclass with
        | none => rfl
        | some t =>
          rw [hc, Option.bind_some, hsuper] at hfree
          exact ih hfree

theorem nearest_update {f : Object → Object} (hfree : ¬ h.Descends s r) (table : Class → Table)
    (name : Value) : (h.update r f).nearest table s name = h.nearest table s name := by
  unfold nearest
  rw [chainLimit_update, pool_update]
  exact climb_update _ hfree

end Heap

end ScriptMachine
