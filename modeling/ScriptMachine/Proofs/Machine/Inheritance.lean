import ScriptMachine.Proofs.Machine.PropertyWrites

/-!
What a class has after it inherits. The methods and defaults of the superclass are stored over those
that the class has, so that of two entries of one name the one of the superclass is found; what only
the class has is found before what comes from farther up; and the class keeps its constructor. A
definition that comes after the inheritance is found before everything. So the order of the two
matters under the names that the superclass itself has, and under no other.
-/

namespace ScriptMachine

/-- The tables of a class that are inherited. -/
inductive Shelf where
  | methods
  | defaults
deriving DecidableEq, Repr

def Shelf.table : Shelf → Class → Table
  | methods => Class.methods
  | defaults => Class.defaults

/-- The instructions that give a class a member. -/
inductive Definition where
  | method (name : Value)
  | property (name : Value) (isStatic : Bool)

namespace Definition

def name : Definition → Value
  | method name => name
  | property name _ => name

/-- The inherited table that the member is stored in. -/
def shelf? (d : Definition) (kind : FunctionKind) : Option Shelf :=
  match d with
  | method _ =>
    match kind with
    | .initializer | .static => none
    | _ => some .methods
  | property _ isStatic => if isStatic then none else some .defaults

/-- The class with the member. -/
def apply (d : Definition) (kind : FunctionKind) (v : Value) (pool : Pool) (c : Class) : Class :=
  match d with
  | method name =>
    match kind with
    | .initializer => { c with constructor? := some v }
    | .static => { c with staticMethods := c.staticMethods.set pool name v }
    | _ => { c with methods := c.methods.set pool name v }
  | property name isStatic =>
    if isStatic then { c with statics := c.statics.set pool name v }
    else { c with defaults := c.defaults.set pool name v }

/-- The instruction, on a class below the value. -/
def act : Definition → Exec Unit
  | method name => Machine.makeMethod name
  | property name isStatic => Machine.defineProperty name isStatic

variable {d : Definition} {kind : FunctionKind} {v other : Value} {p : Pool} {c parent : Class}
  {shelf : Shelf} {superclass : Value}

/-! Classes. -/

theorem superclass_apply (d : Definition) (kind : FunctionKind) (v : Value) (p : Pool) (c : Class) :
    (d.apply kind v p c).superclass = c.superclass := by
  cases d with
  | method name => cases kind <;> rfl
  | property name isStatic => cases isStatic <;> rfl

theorem table_apply (d : Definition) (kind : FunctionKind) (v : Value) (p : Pool) (c : Class)
    (shelf : Shelf) : shelf.table (d.apply kind v p c) =
      if d.shelf? kind = some shelf then (shelf.table c).set p d.name v else shelf.table c := by
  cases d with
  | method name => cases kind <;> cases shelf <;> rfl
  | property name isStatic => cases isStatic <;> cases shelf <;> rfl

theorem table_inheriting (c : Class) (p : Pool) (superclass : Value) (parent : Class)
    (shelf : Shelf) : shelf.table (c.inheriting p superclass parent) =
      (shelf.table c).addAll p (shelf.table parent) := by
  cases shelf <;> rfl

/-- Constructors and static members do not depend on the order. -/
theorem static?_comm (d : Definition) (kind : FunctionKind) (v : Value) (p : Pool) (c : Class)
    (superclass : Value) (parent : Class) (name : Value) :
    ((d.apply kind v p c).inheriting p superclass parent).static? p name =
      (d.apply kind v p (c.inheriting p superclass parent)).static? p name := by
  cases d with
  | method name => cases kind <;> rfl
  | property name isStatic => cases isStatic <;> rfl

theorem constructor_comm (d : Definition) (kind : FunctionKind) (v : Value) (p : Pool) (c : Class)
    (superclass : Value) (parent : Class) :
    ((d.apply kind v p c).inheriting p superclass parent).constructor? =
      (d.apply kind v p (c.inheriting p superclass parent)).constructor? := by
  cases d with
  | method name => cases kind <;> rfl
  | property name isStatic => cases isStatic <;> rfl

end Definition

namespace Heap

variable {h : Heap} {r s : Ref} {c c' : Class} {name : Value}

/-- The heap with another class in a slot. -/
def withClass (h : Heap) (r : Ref) (c : Class) : Heap := h.update r fun _ => .cls c

theorem class?_withClass_self (hc : h.class? r = some c) :
    (h.withClass r c').class? r = some c' := by
  rw [class?_eq_some, withClass, get?_update, if_pos rfl, class?_eq_some.1 hc]
  rfl

/-- Whether a class is reached does not depend on what the class is. -/
theorem reaches_update (f : Object → Object) (fuel : Nat) (s : Ref) :
    (h.update r f).reaches r fuel s = h.reaches r fuel s := by
  induction fuel generalizing s with
  | zero => rfl
  | succ fuel ih =>
    rw [reaches, reaches]
    by_cases hs : s = r
    · rw [if_pos hs, if_pos hs]
    · rw [if_neg hs, if_neg hs, class?_update_of_ne hs]
      cases (h.class? s).bind Class.superclass with
      | none => rfl
      | some t => exact ih t

theorem descends_withClass (h : Heap) (r s : Ref) (c : Class) :
    (h.withClass r c).Descends s r ↔ h.Descends s r := by
  unfold Descends withClass
  rw [chainLimit_update, reaches_update]

/-- What is found in a class and above it, if the class is not above itself. -/
theorem nearest_withClass (hc : h.class? r = some c) (hsuper : c'.superclass = some s)
    (hfree : ¬ h.Descends s r) (table : Class → Table) (name : Value) :
    (h.withClass r c').nearest table r name =
      match Table.entry? (table c') h.pool name with
      | some e => .found e
      | none => h.nearest table s name := by
  have hpool : (h.withClass r c').pool = h.pool := pool_update r _
  have habove : (h.withClass r c').nearest table s name = h.nearest table s name :=
    nearest_update hfree table name
  rw [nearest_of_class? (class?_withClass_self hc), hsuper, hpool]
  cases Table.entry? (table c') h.pool name with
  | some e => rfl
  | none => exact habove

end Heap

namespace Machine

variable {m q : Machine} {below : Array Value} {r s : Ref} {c parent : Class} {v : Value}
  {d : Definition}

theorem modifyClass_withClass (hc : m.heap.class? r = some c) (g : Pool → Class → Class) :
    modifyClass (.ref r) g m = .ok () { m with heap := m.heap.withClass r (g m.heap.pool c) } :=
  modifyClass_ok (Heap.class?_eq_some.1 hc) rfl

/-- The class on the stack gets the member. -/
theorem act_ok (hstack : m.stack = (below.push (.ref r)).push v) (hc : m.heap.class? r = some c) :
    d.act m = .ok () { m with
      heap := m.heap.withClass r (d.apply (m.methodKind v) v m.heap.pool c)
      stack := below.push (.ref r) } := by
  let rest : Machine := { m with stack := below.push (.ref r) }
  have hpeek : peek 0 rest = .ok (.ref r) rest := peek_pushed rfl
  have hrest : rest.heap.class? r = some c := hc
  cases d with
  | method name =>
    show makeMethod name m = _
    unfold makeMethod
    rw [bind_of_ok (pop_pushed hstack), get_bind, bind_of_ok hpeek, modifyClass_withClass hrest]
    rfl
  | property name isStatic =>
    show defineProperty name isStatic m = _
    unfold defineProperty
    rw [bind_of_ok (pop_pushed hstack), bind_of_ok hpeek, modifyClass_withClass hrest]
    rfl

theorem inherit_ok (hstack : m.stack = (below.push (.ref s)).push (.ref r))
    (hc : m.heap.class? r = some c) (hparent : m.heap.class? s = some parent) :
    inherit m = .ok () { m with
      heap := m.heap.withClass r (c.inheriting m.heap.pool (.ref s) parent)
      stack := below.push (.ref s) } := by
  have hpeek : peek 1 m = .ok (.ref s) m := by
    have hcalled : m.stack = below.push (.ref s) ++ #[.ref r] := by rw [hstack]; rfl
    exact peek_called hcalled
  have hclass : m.classOf? (.ref s) = some parent := hparent
  have hrest : ({ m with stack := below.push (.ref s) } : Machine).heap.class? r = some c := hc
  unfold inherit
  rw [bind_of_ok hpeek, get_bind, hclass]
  dsimp only
  rw [bind_of_ok (pop_pushed hstack), modifyClass_withClass hrest]

/-- A closure says what becomes of it, and stays what it is. -/
theorem methodKind_withClass (hc : m.heap.class? r = some c) (c' : Class) (v : Value) :
    ({ m with heap := m.heap.withClass r c' } : Machine).methodKind v = m.methodKind v := by
  cases v with
  | ref t =>
    unfold methodKind Heap.object? Heap.withClass
    dsimp only
    rw [Heap.get?_update]
    by_cases ht : r = t
    · subst ht
      rw [if_pos rfl, Heap.class?_eq_some.1 hc]
      rfl
    · rw [if_neg ht]
  | _ => rfl

/-- Gives the class on top a member and lets it inherit from the class below it. -/
def defineThenInherit (d : Definition) (v : Value) : Exec Unit := do
  push v
  d.act
  inherit

/-- Lets the class on top inherit from the class below it and gives it a member. -/
def inheritThenDefine (d : Definition) (r : Ref) (v : Value) : Exec Unit := do
  inherit
  push (.ref r)
  push v
  d.act

section Orders

variable (hstack : m.stack = (below.push (.ref s)).push (.ref r)) (hc : m.heap.class? r = some c)
  (hparent : m.heap.class? s = some parent)

include hstack hc hparent

theorem inheritThenDefine_ok (d : Definition) (v : Value) :
    ∃ q, inheritThenDefine d r v m = .ok () q ∧
      q.heap = (m.heap.withClass r (c.inheriting m.heap.pool (.ref s) parent)).withClass r
        (d.apply (m.methodKind v) v m.heap.pool (c.inheriting m.heap.pool (.ref s) parent)) := by
  let heap := m.heap.withClass r (c.inheriting m.heap.pool (.ref s) parent)
  let p : Machine := { m with heap, stack := ((below.push (.ref s)).push (.ref r)).push v }
  have hclass : p.heap.class? r = some (c.inheriting m.heap.pool (.ref s) parent) :=
    Heap.class?_withClass_self hc
  have hkind : p.methodKind v = m.methodKind v := methodKind_withClass hc _ v
  have hpool : p.heap.pool = m.heap.pool := Heap.pool_update r _
  have hact := act_ok (m := p) (d := d) rfl hclass
  rw [hkind, hpool] at hact
  unfold inheritThenDefine
  rw [bind_of_ok (inherit_ok hstack hc hparent)]
  exact ⟨_, hact, rfl⟩

theorem defineThenInherit_ok (hne : s ≠ r) (d : Definition) (v : Value) :
    ∃ q, defineThenInherit d v m = .ok () q ∧
      q.heap = (m.heap.withClass r (d.apply (m.methodKind v) v m.heap.pool c)).withClass r
        ((d.apply (m.methodKind v) v m.heap.pool c).inheriting m.heap.pool (.ref s) parent) := by
  let start : Machine := { m with stack := ((below.push (.ref s)).push (.ref r)).push v }
  let heap := m.heap.withClass r (d.apply (m.methodKind v) v m.heap.pool c)
  let p : Machine := { m with heap, stack := (below.push (.ref s)).push (.ref r) }
  have hact : d.act start = .ok () p := act_ok rfl hc
  have hclass : p.heap.class? r = some (d.apply (m.methodKind v) v m.heap.pool c) :=
    Heap.class?_withClass_self hc
  have hsuper : p.heap.class? s = some parent := (Heap.class?_update_of_ne hne).trans hparent
  have hpool : p.heap.pool = m.heap.pool := Heap.pool_update r _
  have hinherit := inherit_ok (m := p) rfl hclass hsuper
  rw [hpool] at hinherit
  have hpush : push v m = .ok () start := by
    show EStateM.Result.ok () { m with stack := m.stack.push v } = _
    rw [hstack]
  unfold defineThenInherit
  rw [bind_of_ok hpush, bind_of_ok hact]
  exact ⟨_, hinherit, rfl⟩

end Orders

/-! The main result. -/

/-- What a class leads to after it inherited. -/
structure Inherited (h : Heap) (r s : Ref) (c parent : Class) (h' : Heap) : Prop where
  /-- What the superclass itself has comes before what the class has, and that before what comes
  from farther up. -/
  entries : ∀ (shelf : Shelf) (name : Value), h'.nearest shelf.table r name =
    match (Table.entry? (shelf.table parent) h.pool name).or
      (Table.entry? (shelf.table c) h.pool name) with
    | some e => .found e
    | none => h.nearest shelf.table s name
  constructor : (h'.class? r).bind Class.constructor? = c.constructor?.or parent.constructor?

/-- What a class leads to if a member was defined before it inherited, and if it was defined after
that. -/
structure Reordered (d : Definition) (kind : FunctionKind) (v : Value) (pool : Pool) (r : Ref)
    (parent : Class) (before after : Heap) : Prop where
  constructor :
    (before.class? r).bind Class.constructor? = (after.class? r).bind Class.constructor?
  static : ∀ name, (before.class? r).bind (fun c => c.static? pool name) =
    (after.class? r).bind fun c => c.static? pool name
  same : ∀ (shelf : Shelf) (name : Value),
    d.shelf? kind ≠ some shelf ∨ pool.sameKey d.name name = false ∨
      Table.entry? (shelf.table parent) pool name = none →
    before.nearest shelf.table r name = after.nearest shelf.table r name
  different : ∀ (shelf : Shelf) (name : Value) (e : Entry), d.shelf? kind = some shelf →
    pool.sameKey d.name name = true → Table.entry? (shelf.table parent) pool name = some e →
    before.nearest shelf.table r name = .found e ∧
      after.nearest shelf.table r name = .found (Table.entryFor pool d.name v .value)

theorem inOrder_shelf {h : Heap} (hordered : h.InOrder) (hc : h.class? r = some c) (shelf : Shelf) :
    (shelf.table c).InOrder h.pool := by
  refine hordered r _ (Heap.class?_eq_some.1 hc) _ ?_
  cases shelf <;> simp [Shelf.table, Object.tables]

section Laws

variable {h : Heap} (hwf : h.WellFormed) (hordered : h.InOrder) (hc : h.class? r = some c)
  (hparent : h.class? s = some parent) (hfree : ¬ h.Descends s r)

include hwf hordered hc hparent hfree

theorem inherited_withClass :
    Inherited h r s c parent (h.withClass r (c.inheriting h.pool (.ref s) parent)) where
  entries shelf name := by
    have ht := inOrder_shelf hordered hc shelf
    have hother := inOrder_shelf hordered hparent shelf
    rw [Heap.nearest_withClass hc rfl hfree, Definition.table_inheriting,
      ht.entry?_addAll hwf.pool hother]
  constructor := by
    rw [Heap.class?_withClass_self hc]
    show (c.constructor? <|> parent.constructor?) = _
    cases c.constructor? <;> rfl

theorem reordered_withClass (d : Definition) (kind : FunctionKind) (v : Value)
    (hname : h.pool.Holds d.name) :
    Reordered d kind v h.pool r parent
      ((h.withClass r (d.apply kind v h.pool c)).withClass r
        ((d.apply kind v h.pool c).inheriting h.pool (.ref s) parent))
      ((h.withClass r (c.inheriting h.pool (.ref s) parent)).withClass r
        (d.apply kind v h.pool (c.inheriting h.pool (.ref s) parent))) := by
  have hself (a b : Class) : ((h.withClass r a).withClass r b).class? r = some b :=
    Heap.class?_withClass_self (Heap.class?_withClass_self hc)
  have hnearest (a b : Class) (hsuper : b.superclass = some s) (shelf : Shelf) (name : Value) :
      ((h.withClass r a).withClass r b).nearest shelf.table r name =
        match Table.entry? (shelf.table b) h.pool name with
        | some e => .found e
        | none => h.nearest shelf.table s name := by
    have hpool : (h.withClass r a).pool = h.pool := Heap.pool_update r _
    have habove : (h.withClass r a).nearest shelf.table s name = h.nearest shelf.table s name :=
      Heap.nearest_update hfree _ _
    rw [Heap.nearest_withClass (Heap.class?_withClass_self hc) hsuper
      (mt (Heap.descends_withClass h r s a).1 hfree), hpool, habove]
  have hbefore := hnearest (d.apply kind v h.pool c)
    ((d.apply kind v h.pool c).inheriting h.pool (.ref s) parent) rfl
  have hafter := hnearest (c.inheriting h.pool (.ref s) parent)
    (d.apply kind v h.pool (c.inheriting h.pool (.ref s) parent))
    (Definition.superclass_apply _ _ _ _ _)
  have ht := inOrder_shelf hordered hc
  have hother := inOrder_shelf hordered hparent
  -- the entry that is found in the class itself, in either order
  have hfirst (shelf : Shelf) (name : Value) :
      Table.entry? (((shelf.table c).set h.pool d.name v).addAll h.pool (shelf.table parent))
        h.pool name = (Table.entry? (shelf.table parent) h.pool name).or
          (Table.entry? ((shelf.table c).set h.pool d.name v) h.pool name) :=
    ((ht shelf).insert hwf.pool hname v .value).entry?_addAll hwf.pool (hother shelf)
  have hlast (shelf : Shelf) :
      ((shelf.table c).addAll h.pool (shelf.table parent)).InOrder h.pool :=
    (ht shelf).addAll hwf.pool (hother shelf)
  refine ⟨?_, fun name => ?_, fun shelf name hapart => ?_, fun shelf name e hshelf hsame he => ?_⟩
  · rw [hself, hself]
    exact Definition.constructor_comm d kind v h.pool c (.ref s) parent
  · rw [hself, hself]
    exact Definition.static?_comm d kind v h.pool c (.ref s) parent name
  · rw [hbefore, hafter]
    simp only [Definition.table_inheriting, Definition.table_apply]
    by_cases hshelf : d.shelf? kind = some shelf
    · rw [if_pos hshelf, if_pos hshelf, hfirst]
      rcases hapart.resolve_left (absurd hshelf) with hother' | hnone
      · rw [(ht shelf).entry?_set_of_ne hwf.pool hname hother',
          (hlast shelf).entry?_set_of_ne hwf.pool hname hother',
          (ht shelf).entry?_addAll hwf.pool (hother shelf)]
      · rw [hnone, Option.none_or, (ht shelf).entry?_set hwf.pool hname,
          (hlast shelf).entry?_set hwf.pool hname,
          (ht shelf).entry?_addAll hwf.pool (hother shelf), hnone, Option.none_or]
    · rw [if_neg hshelf, if_neg hshelf]
  · rw [hbefore, hafter]
    simp only [Definition.table_inheriting, Definition.table_apply, if_pos hshelf]
    rw [hfirst, he, (hlast shelf).entry?_set hwf.pool hname, if_pos hsame]
    exact ⟨rfl, rfl⟩

end Laws

/-- A class that inherits leads to the entries of the superclass before its own, and to its own
before those from farther up; it keeps its constructor. A member that is defined after that comes
first. So it makes a difference whether the member or the superclass comes first, if the superclass
itself has an entry of the name, and no difference otherwise. -/
theorem inherited_entries_come_first (hwf : m.heap.WellFormed) (hordered : m.heap.InOrder)
    (hc : m.heap.class? r = some c) (hparent : m.heap.class? s = some parent)
    (hfree : ¬ m.heap.Descends s r) (hstack : m.stack = (below.push (.ref s)).push (.ref r)) :
    (∃ q, inherit m = .ok () q ∧ q.stack = below.push (.ref s) ∧
      Inherited m.heap r s c parent q.heap) ∧
    ∀ d v, m.heap.pool.Holds d.name → ∃ before after,
      defineThenInherit d v m = .ok () before ∧ inheritThenDefine d r v m = .ok () after ∧
        Reordered d (m.methodKind v) v m.heap.pool r parent before.heap after.heap := by
  constructor
  · exact ⟨_, inherit_ok hstack hc hparent, rfl,
      inherited_withClass hwf hordered hc hparent hfree⟩
  · intro d v hname
    obtain ⟨before, hbefore, hfirst⟩ :=
      defineThenInherit_ok hstack hc hparent (Heap.ne_of_not_descends hfree) d v
    obtain ⟨after, hafter, hlast⟩ := inheritThenDefine_ok hstack hc hparent d v
    refine ⟨before, after, hbefore, hafter, ?_⟩
    rw [hfirst, hlast]
    exact reordered_withClass hwf hordered hc hparent hfree d _ v hname

/-- Two classes with a method of one name, the one to be the superclass below the other on the
stack. -/
structure Heirs where
  machine : Machine
  name : Value
  base : Class
  derived : Class
  baseRef : Ref
  derivedRef : Ref

def heirs (new : Machine) : Heirs :=
  let name := new.intern "greet"
  let methods (v : Value) : Table := ({} : Table).set name.2.heap.pool name.1 v
  let base : Class := { name := "Base", methods := methods (.bool true) }
  let first := name.2.heap.alloc (.cls base)
  let derived : Class := { name := "Derived", methods := methods (.bool false) }
  let second := first.2.alloc (.cls derived)
  { machine := { name.2 with heap := second.2, stack := #[.ref first.1, .ref second.1] }
    name := name.1, base, derived, baseRef := first.1, derivedRef := second.1 }

/-- What the machine with the heirs has. -/
structure Heirs.Settled (k : Heirs) : Prop where
  wellFormed : k.machine.heap.WellFormed
  inOrder : k.machine.heap.InOrder
  holds : k.machine.heap.pool.Holds k.name
  text : ∃ i, k.name = .ref (.text i)
  base : k.machine.heap.class? k.baseRef = some k.base
  derived : k.machine.heap.class? k.derivedRef = some k.derived
  apart : ¬ k.machine.heap.Descends k.baseRef k.derivedRef
  method : k.base.methods.entry? k.machine.heap.pool k.name =
    some (Table.entryFor k.machine.heap.pool k.name (.bool true) .value)

theorem settled_heirs {new : Machine} (hwf : new.heap.WellFormed) (hordered : new.heap.InOrder) :
    (heirs new).Settled := by
  let k := heirs new
  have hnamed := hwf.intern "greet"
  have hfirst := hnamed.alloc (.cls k.base)
  have hholds : (new.heap.intern "greet").2.pool.Holds k.name := holds_intern hwf "greet"
  have hempty : Table.InOrder (new.heap.intern "greet").2.pool {} := Table.inOrder_empty
  have hmethods (v : Value) := hempty.insert hnamed.pool hholds v .value
  have hbase := (hordered.intern hwf "greet").alloc (o := .cls k.base) hnamed
    (Object.inOrder_cls (hmethods (.bool true)) hempty hempty hempty)
  have hderived := hbase.alloc (o := .cls k.derived) hfirst
    (Object.inOrder_cls (hmethods (.bool false)) hempty hempty hempty)
  have hfirst' := Heap.get?_alloc_self hnamed (.cls k.base)
  have hbase' : k.machine.heap.class? k.baseRef = some k.base :=
    Heap.class?_eq_some.2 (hfirst.get?_alloc_of_get? (.cls k.derived) hfirst')
  have hne : k.baseRef ≠ k.derivedRef := Heap.ne_alloc_of_get? hfirst (.cls k.derived) hfirst'
  refine ⟨hfirst.alloc _, hderived, hholds, ⟨_, rfl⟩, hbase',
    Heap.class?_eq_some.2 (Heap.get?_alloc_self hfirst _), ?_,
    hempty.entry?_set_self hnamed.pool hholds rfl⟩
  exact Heap.not_descends_of_root (Heap.parent?_eq_some.2 ⟨_, hbase', rfl⟩) hne

theorem inherited_entries_come_first_heirs :
    let k := heirs (Machine.new {})
    let theirs := Table.entryFor k.machine.heap.pool k.name (.bool true) .value
    let later := Table.entryFor k.machine.heap.pool k.name .nil .value
    k.Settled ∧
      (∃ q, inherit k.machine = .ok () q ∧
        q.heap.findMethod k.derivedRef k.name = .found theirs) ∧
      ∃ before after, defineThenInherit (.method k.name) .nil k.machine = .ok () before ∧
        inheritThenDefine (.method k.name) k.derivedRef .nil k.machine = .ok () after ∧
        before.heap.findMethod k.derivedRef k.name = .found theirs ∧
        after.heap.findMethod k.derivedRef k.name = .found later := by
  have hk := settled_heirs (sound_new {}).heap (inOrder_new {}).heap
  generalize Machine.new {} = new at hk ⊢
  intro k theirs later
  obtain ⟨i, hi⟩ := hk.text
  have hstack : k.machine.stack =
      ((#[] : Array Value).push (.ref k.baseRef)).push (.ref k.derivedRef) := rfl
  obtain ⟨⟨q, hinherit, -, hq⟩, horders⟩ := inherited_entries_come_first hk.wellFormed hk.inOrder
    hk.derived hk.base hk.apart hstack
  obtain ⟨before, after, hbefore, hafter, hreordered⟩ := horders (.method k.name) .nil hk.holds
  have hsame : k.machine.heap.pool.sameKey k.name k.name = true := by
    rw [hi]
    exact (hk.wellFormed.pool.sameKey_text_iff i i).2 rfl
  obtain ⟨hfirst, hlast⟩ := hreordered.different .methods k.name theirs rfl hsame hk.method
  refine ⟨hk, ⟨q, hinherit, ?_⟩, before, after, hbefore, hafter, hfirst, hlast⟩
  have hfound := hq.entries .methods k.name
  rw [show Shelf.methods.table k.base = k.base.methods from rfl, hk.method] at hfound
  exact hfound

end Machine

end ScriptMachine
