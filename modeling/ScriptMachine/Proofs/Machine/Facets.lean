import ScriptMachine.Proofs.Heap.NearestClass
import ScriptMachine.Proofs.Machine.FusedInvocation
import ScriptMachine.Proofs.Machine.Safety.Member

/-!
What a name leads to. A property of a value comes from a field of an instance, an entry of a dict, a
static method or property of a class, or from the methods along a chain of classes. In each object a
name depends on one facet of it, so that two machines in which all objects have the same facets
agree on where the name leads.
-/

namespace ScriptMachine

/-- What a named property of a value depends on in an object. -/
inductive Facet where
  | field (cls : Ref) (own : Option Entry)
  | item (entry : Option Entry)
  | member (method static : Option Entry) (superclass : Option Ref)
  | plain (kind : Option Primitive)

def Object.facet (pool : Pool) (name : Value) : Object → Facet
  | .inst i => .field i.cls (i.fields.entry? pool name)
  | .dict d => .item (d.table.entry? pool name)
  | .cls c => .member (c.methods.entry? pool name) (c.static? pool name) c.superclass
  | .array _ => .plain (some .array)
  | .range _ => .plain (some .range)
  | .function _ | .closure _ | .native _ | .bound _ => .plain (some .function)
  | .upvalue _ | .switch _ => .plain none

namespace Facet

def own? : Facet → Option Entry
  | field _ own => own
  | _ => none

def class? : Facet → Option Ref
  | field cls _ => some cls
  | _ => none

def entry? : Facet → Option Entry
  | item entry => entry
  | _ => none

def static? : Facet → Option (Option Entry)
  | member _ static _ => some static
  | _ => none

def link? : Facet → Option (Option Entry × Option Ref)
  | member method _ superclass => some (method, superclass)
  | _ => none

def kind? : Facet → Option Primitive
  | item _ => some .dict
  | plain kind => kind
  | _ => none

end Facet

namespace Heap

variable {h h' : Heap} {r : Ref} {p : Primitive} {v name : Value}

/-- What a named property of a value depends on in the object behind the value. -/
def facet? (h : Heap) (v name : Value) : Option Facet :=
  (h.object? v).map (Object.facet h.pool name)

theorem instanceClass?_eq (h : Heap) (v name : Value) :
    h.instanceClass? v = (h.facet? v name).bind Facet.class? := by
  unfold instanceClass? facet?
  cases h.object? v with
  | none => rfl
  | some o => cases o <;> rfl

theorem primitive?_congr (hsame : h'.facet? v name = h.facet? v name) :
    h'.primitive? v = h.primitive? v := by
  have hkind (h : Heap) (i : Nat) :
      h.primitive? (.ref (.object i)) = (h.facet? (.ref (.object i)) name).bind Facet.kind? := by
    unfold primitive? facet? object?
    dsimp only
    cases h.get? (.object i) with
    | none => rfl
    | some o => cases o <;> rfl
  rcases v with _ | _ | _ | (i | i)
  case ref.object => rw [hkind, hkind, hsame]
  all_goals rfl

theorem link?_eq (h : Heap) (r : Ref) (name : Value) :
    (h.class? r).map (fun c => (c.methods.entry? h.pool name, c.superclass)) =
      (h.facet? (.ref r) name).bind Facet.link? := by
  unfold class? facet? object?
  dsimp only
  cases h.get? r with
  | none => rfl
  | some o => cases o <;> rfl

/-- Neither an instance nor a class has the class of a primitive value. -/
theorem get?_ne_of_primitive? (hp : h.primitive? (.ref r) = some p) :
    (∀ i, h.get? r ≠ some (.inst i)) ∧ ∀ c, h.get? r ≠ some (.cls c) := by
  cases r with
  | text i => exact ⟨nofun, nofun⟩
  | object i =>
    unfold primitive? at hp
    constructor
    · intro i hi
      simp [hi] at hp
    · intro c hc
      simp [hc] at hp

theorem exists_dict_of_primitive? (hp : h.primitive? (.ref r) = some .dict) :
    ∃ d, h.get? r = some (.dict d) := by
  cases r with
  | text i => cases hp
  | object i =>
    unfold primitive? at hp
    dsimp only at hp
    split at hp <;> first | exact ⟨_, by assumption⟩ | cases hp

end Heap

namespace Machine

variable {host : Host} {m q : Machine} {below : Array Value} {target v name : Value} {r : Ref}
  {p : Primitive} {e : Entry}

/-- What a name leads to: on a class a static method or property, and on other values what can be
called by the name. -/
def property (m : Machine) (v name : Value) : Search Entry :=
  match m.classOf? v with
  | some c => .ofOption (c.static? m.heap.pool name)
  | none => m.lookup v name

theorem fieldEntry?_eq (m : Machine) (v name : Value) :
    m.fieldEntry? v name = (m.heap.facet? v name).bind Facet.own? := by
  unfold fieldEntry? Heap.facet?
  cases m.heap.object? v with
  | none => rfl
  | some o => cases o <;> rfl

theorem dictEntry?_eq (m : Machine) (v name : Value) :
    m.dictEntry? v name = (m.heap.facet? v name).bind Facet.entry? := by
  unfold dictEntry? Heap.facet?
  cases m.heap.object? v with
  | none => rfl
  | some o => cases o <;> rfl

theorem static?_eq (m : Machine) (v name : Value) :
    (m.classOf? v).map (fun c => c.static? m.heap.pool name) =
      (m.heap.facet? v name).bind Facet.static? := by
  unfold classOf? Heap.facet?
  cases m.heap.object? v with
  | none => rfl
  | some o => cases o <;> rfl

theorem lookup_congr (hbuiltins : q.builtins = m.builtins)
    (hfacet : q.heap.facet? v name = m.heap.facet? v name)
    (hmethod : ∀ r, q.heap.findMethod r name = m.heap.findMethod r name) :
    q.lookup v name = m.lookup v name := by
  unfold lookup
  rw [fieldEntry?_eq, fieldEntry?_eq, dictEntry?_eq, dictEntry?_eq,
    Heap.instanceClass?_eq q.heap v name, Heap.instanceClass?_eq m.heap v name, hfacet,
    Heap.primitive?_congr hfacet, hbuiltins]
  simp only [hmethod]

/-- A name leads to the same in two machines if every object has the same for it. -/
theorem property_congr (hbuiltins : q.builtins = m.builtins)
    (hlimit : q.heap.chainLimit = m.heap.chainLimit)
    (hfacets : ∀ w, q.heap.facet? w name = m.heap.facet? w name) (v : Value) :
    q.property v name = m.property v name := by
  have hmethod (r : Ref) : q.heap.findMethod r name = m.heap.findMethod r name := by
    refine Heap.findMethod_congr hlimit (fun s => ?_) r
    rw [Heap.link?_eq, Heap.link?_eq, hfacets]
  have hproperty (m : Machine) : m.property v name =
      match (m.classOf? v).map (fun c => c.static? m.heap.pool name) with
      | some e => .ofOption e
      | none => m.lookup v name := by
    unfold property
    cases m.classOf? v <;> rfl
  rw [hproperty, hproperty, static?_eq, static?_eq, hfacets,
    lookup_congr hbuiltins (hfacets v) hmethod]

/-! Kinds of values. -/

theorem property_of_class {c : Class} (hr : m.heap.get? r = some (.cls c)) (name : Value) :
    m.property (.ref r) name = .ofOption (c.static? m.heap.pool name) := by
  have hc : m.classOf? (.ref r) = some c := by simp only [classOf?, Heap.object?, hr]
  unfold property
  rw [hc]

theorem property_of_primitive? (hp : m.heap.primitive? target = some p)
    (name : Value) : m.property target name = m.lookup target name := by
  have hclass : m.classOf? target = none := by
    rw [Option.eq_none_iff_forall_ne_some]
    intro c hc
    obtain ⟨s, rfl, hs⟩ := classOf?_eq_some hc
    exact (Heap.get?_ne_of_primitive? hp).2 c (Heap.class?_eq_some.1 hs)
  unfold property
  rw [hclass]

/-- What has the class of a primitive value, and is no dict, has neither fields nor entries. -/
theorem datum_of_primitive? (hp : m.heap.primitive? target = some p)
    (hdict : p ≠ .dict) (name : Value) :
    m.heap.instanceClass? target = none ∧
      (m.fieldEntry? target name).or (m.dictEntry? target name) = none := by
  rcases target with _ | _ | _ | (i | i)
  case ref.object =>
    unfold Heap.primitive? at hp
    dsimp only at hp
    unfold Heap.instanceClass? fieldEntry? dictEntry? Heap.object?
    dsimp only
    split at hp
    case h_1 => simp_all
    case h_2 =>
      cases hp
      exact absurd rfl hdict
    all_goals simp_all
  all_goals exact ⟨rfl, rfl⟩

/-! Reading. -/

theorem getProperty_static (hstack : m.stack = below.push target) {c : Class}
    (hc : m.classOf? target = some c) (hfound : c.static? m.heap.pool name = some e)
    (hkind : e.kind = .value) :
    getProperty host name true m = .ok () { m with stack := below.push e.value } := by
  have hpeek : peek 0 m = .ok target m := peek_pushed hstack
  have hinstance : m.heap.instanceClass? target = none := by
    obtain ⟨s, rfl, hs⟩ := classOf?_eq_some hc
    simp [Heap.instanceClass?, Heap.object?, Heap.class?_eq_some.1 hs]
  unfold getProperty
  rw [bind_of_ok hpeek, get_bind, hinstance, hc]
  dsimp only
  unfold getOnClass
  rw [get_bind, hfound]
  dsimp only
  rw [if_neg (not_hidden (Or.inl rfl))]
  unfold showField
  rw [hkind]
  exact setTop_pushed hstack

theorem findMethod_absent (habsent : m.heap.findMethod r name = .absent) :
    findMethod r name m = .ok none m := by
  unfold findMethod
  rw [get_bind, habsent]
  rfl

theorem primitiveMethod_absent (hp : m.heap.primitive? target = some p)
    (habsent : m.heap.findMethod (m.builtins.primitive p) name = .absent) :
    primitiveMethod target name m = .ok none m := by
  unfold primitiveMethod
  rw [get_bind, hp]
  dsimp only
  rw [habsent]
  rfl

/-- A name that leads nowhere is refused. -/
theorem getProperty_absent (hstack : m.stack = below.push target)
    (habsent : m.property target name = .absent) :
    ∃ what, getProperty host name true m = misuse what m := by
  have hpeek : peek 0 m = .ok target m := peek_pushed hstack
  unfold getProperty
  rw [bind_of_ok hpeek, get_bind]
  cases hclass : m.classOf? target with
  | some c =>
    obtain ⟨s, rfl, hs⟩ := classOf?_eq_some hclass
    have hinstance : m.heap.instanceClass? (.ref s) = none := by
      simp [Heap.instanceClass?, Heap.object?, Heap.class?_eq_some.1 hs]
    have hstatic : c.static? m.heap.pool name = none := by
      rw [property_of_class (Heap.class?_eq_some.1 hs)] at habsent
      cases hfound : c.static? m.heap.pool name with
      | none => rfl
      | some e =>
        rw [hfound] at habsent
        cases habsent
    rw [hinstance]
    dsimp only
    unfold getOnClass
    rw [get_bind, hstatic]
    exact ⟨_, rfl⟩
  | none =>
    have hlookup : m.lookup target name = .absent := by
      unfold property at habsent
      rwa [hclass] at habsent
    unfold lookup at hlookup
    split at hlookup
    · cases hlookup
    · next hdatum =>
      obtain ⟨hfield, hentry⟩ := Option.or_eq_none_iff.1 hdatum
      cases hinstance : m.heap.instanceClass? target with
      | some cls =>
        rw [hinstance] at hlookup
        dsimp only
        unfold getOnInstance
        rw [get_bind, if_neg (not_hidden (Or.inl rfl)), hfield]
        dsimp only
        rw [bind_of_ok (findMethod_absent hlookup)]
        exact ⟨_, rfl⟩
      | none =>
        rw [hinstance, Option.none_or] at hlookup
        rw [hentry]
        dsimp only
        unfold getOnPrimitive
        rw [get_bind]
        cases hp : m.heap.primitive? target with
        | none => exact ⟨_, rfl⟩
        | some p =>
          rw [hp] at hlookup
          dsimp only
          rw [bind_of_ok (primitiveMethod_absent hp hlookup)]
          exact ⟨_, rfl⟩

end Machine

end ScriptMachine
