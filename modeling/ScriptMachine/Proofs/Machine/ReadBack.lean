import ScriptMachine.Proofs.Machine.PropertyWrites

/-!
Reading a property that was written. An instance and a dict show what was written. A class shows
what is not called; what is called becomes its method. The other primitive values show what is
called, as a method of theirs; what is not called becomes a static property of their class. What is
not shown leaves the property as it was.
-/

namespace ScriptMachine.Machine

variable {host : Host} {m q : Machine} {below : Array Value} {target name other v : Value} {r : Ref}
  {o : Object} {p : Primitive} {c : Class}

/-! What a write shows. -/

/-- Reading the name shows the value. -/
def Shows (host : Host) (q : Machine) (target name v : Value) : Prop :=
  ∀ below : Array Value, getProperty host name true { q with stack := below.push target } =
    .ok () { q with stack := below.push v }

/-- Reading the name shows the value as a method of the target. -/
def ShowsBound (host : Host) (q : Machine) (target name v : Value) : Prop :=
  ∀ below : Array Value,
    let made := q.alloc (.bound { receiver := target, method := v })
    getProperty host name true { q with stack := below.push target } =
      .ok () { made.2 with stack := below.push made.1 }

theorem shows_inst (hwf : m.heap.WellFormed) (hordered : m.heap.InOrder)
    (hname : m.heap.pool.Holds name) (hnan : name.isNaN = false) {i : Instance}
    (hr : m.heap.get? r = some (.inst i)) :
    (m.written r name v).Shows host (.ref r) name v := by
  intro stack
  let q : Machine := { m.written r name v with stack := stack.push (.ref r) }
  have hpool : q.heap.pool = m.heap.pool := Heap.pool_update r _
  have hget : q.heap.object? (.ref r) = some (.inst { i with
      fields := i.fields.set m.heap.pool name v }) :=
    get?_written_self (.inst hr) name v
  have hfield : q.fieldEntry? (.ref r) name = some (Table.entryFor m.heap.pool name v .value) := by
    unfold fieldEntry?
    rw [hget, hpool]
    exact (hordered r _ hr _ List.mem_cons_self).entry?_set_self hwf.pool hname hnan
  exact getProperty_datum rfl (Option.or_eq_some_iff.2 (Or.inl hfield)) rfl (Or.inl rfl)

theorem shows_dict (hwf : m.heap.WellFormed) (hordered : m.heap.InOrder)
    (hname : m.heap.pool.Holds name) (hnan : name.isNaN = false) {d : Dict}
    (hr : m.heap.get? r = some (.dict d)) :
    (m.written r name v).Shows host (.ref r) name v := by
  intro stack
  let q : Machine := { m.written r name v with stack := stack.push (.ref r) }
  have hpool : q.heap.pool = m.heap.pool := Heap.pool_update r _
  have hget : q.heap.object? (.ref r) = some (.dict (d.insert m.heap.pool name v)) :=
    get?_written_self (.dict hr) name v
  have hfield : q.fieldEntry? (.ref r) name = none := by
    unfold fieldEntry?
    rw [hget]
  have hentry : q.dictEntry? (.ref r) name = some (Table.entryFor m.heap.pool name v .value) := by
    unfold dictEntry?
    rw [hget, hpool]
    dsimp only
    rw [Dict.table_insert]
    exact (hordered r _ hr _ List.mem_cons_self).entry?_set_self hwf.pool hname hnan
  exact getProperty_datum rfl (Option.or_eq_some_iff.2 (Or.inr ⟨hfield, hentry⟩)) rfl (Or.inl rfl)

/-- A value that is not called becomes a static property, which a static method may hide. -/
theorem shows_static (hwf : m.heap.WellFormed) (hordered : m.heap.InOrder)
    (hname : m.heap.pool.Holds name) (hnan : name.isNaN = false) {c : Class}
    (hr : m.heap.get? r = some (.cls c)) (hplain : m.isCallable v = false)
    (hstatic : c.staticMethods.entry? m.heap.pool name = none) :
    (m.written r name v).Shows host (.ref r) name v := by
  intro stack
  let q : Machine := { m.written r name v with stack := stack.push (.ref r) }
  have hpool : q.heap.pool = m.heap.pool := Heap.pool_update r _
  let c' : Class := { c with statics := c.statics.set m.heap.pool name v }
  have hget : q.heap.object? (.ref r) = some (.cls c') := by
    have hself := get?_written_self (.cls hr) name v
    rw [hplain] at hself
    exact hself
  have hclass : q.classOf? (.ref r) = some c' := by
    unfold classOf?
    rw [hget]
  have htable : c.statics.InOrder m.heap.pool := hordered r _ hr _ (by simp [Object.tables])
  have hfound : c'.static? q.heap.pool name = some (Table.entryFor m.heap.pool name v .value) := by
    rw [hpool, Class.static?, hstatic, htable.entry?_set_self hwf.pool hname hnan]
    rfl
  exact getProperty_static rfl hclass hfound rfl

/-- A value that is called becomes a method. -/
theorem findMethod_written (hwf : m.heap.WellFormed) (hordered : m.heap.InOrder)
    (hname : m.heap.pool.Holds name) (hnan : name.isNaN = false) {c : Class}
    (hr : m.heap.get? r = some (.cls c)) (hcallable : m.isCallable v = true) :
    (m.written r name v).heap.findMethod r name =
      .found (Table.entryFor m.heap.pool name v .value) := by
  let c' : Class := { c with methods := c.methods.set m.heap.pool name v }
  have hget : (m.written r name v).heap.class? r = some c' := by
    have hself := get?_written_self (.cls hr) name v
    rw [hcallable] at hself
    exact Heap.class?_eq_some.2 hself
  have hpool : (m.written r name v).heap.pool = m.heap.pool := Heap.pool_update r _
  rw [Heap.findMethod_eq_nearest, Heap.nearest_of_class? hget, hpool,
    (hordered r _ hr _ List.mem_cons_self).entry?_set_self hwf.pool hname hnan]

theorem showsBound_primitive (hwf : m.heap.WellFormed) (hordered : m.heap.InOrder)
    (hname : m.heap.pool.Holds name) (hnan : name.isNaN = false)
    (hp : m.heap.primitive? target = some p) (hdict : p ≠ .dict)
    (hc : m.heap.get? (m.builtins.primitive p) = some (.cls c))
    (hcallable : m.isCallable v = true) :
    (m.written (m.builtins.primitive p) name v).ShowsBound host target name v := by
  intro stack
  let q : Machine :=
    { m.written (m.builtins.primitive p) name v with stack := stack.push target }
  have hne : target ≠ .ref (m.builtins.primitive p) := by
    rintro rfl
    exact (Heap.get?_ne_of_primitive? hp).2 c hc
  have hfacet : q.heap.facet? target name = m.heap.facet? target name :=
    facet?_written_of_ne hne name
  have hprimitive : q.heap.primitive? target = some p := (Heap.primitive?_congr hfacet).trans hp
  obtain ⟨hinstance, hdatum⟩ := datum_of_primitive? hprimitive hdict name
  have hclass : (q.heap.instanceClass? target).or
      ((q.heap.primitive? target).map q.builtins.primitive) = some (m.builtins.primitive p) := by
    rw [hinstance, hprimitive]
    rfl
  have hmethod : q.heap.findMethod (m.builtins.primitive p) name =
      .found (Table.entryFor m.heap.pool name v .value) :=
    findMethod_written hwf hordered hname hnan hc hcallable
  exact getProperty_method rfl hdatum hclass hmethod rfl (Or.inl rfl)

/-! What a write does not show. -/

/-- Methods are not shown by their class, and static methods come before static properties. -/
theorem property_written_class {c : Class} (hr : m.heap.get? r = some (.cls c))
    (hhidden : m.isCallable v = true ∨ c.staticMethods.entry? m.heap.pool name ≠ none) :
    (m.written r name v).property (.ref r) name = m.property (.ref r) name := by
  have hpool : (m.written r name v).heap.pool = m.heap.pool := Heap.pool_update r _
  have hself := get?_written_self (.cls hr) name v
  rw [property_of_class hself, property_of_class hr, hpool]
  cases hcallable : m.isCallable v with
  | true => rfl
  | false =>
    obtain ⟨e, he⟩ := Option.ne_none_iff_exists'.1 (hhidden.resolve_left (by simp [hcallable]))
    simp [Class.static?, he]

/-- The static properties of the class of a primitive value are not shown by the value. -/
theorem property_written_plain (hp : m.heap.primitive? target = some p)
    (hc : m.heap.get? (m.builtins.primitive p) = some (.cls c)) (hplain : m.isCallable v = false) :
    (m.written (m.builtins.primitive p) name v).property target name = m.property target name := by
  let q : Machine := m.written (m.builtins.primitive p) name v
  have hne : target ≠ .ref (m.builtins.primitive p) := by
    rintro rfl
    exact (Heap.get?_ne_of_primitive? hp).2 c hc
  have hfacet : q.heap.facet? target name = m.heap.facet? target name :=
    facet?_written_of_ne hne name
  have hlimit : q.heap.chainLimit = m.heap.chainLimit := Heap.chainLimit_update m.heap _ _
  have hpool : q.heap.pool = m.heap.pool := Heap.pool_update _ _
  have hmethod (r : Ref) : q.heap.findMethod r name = m.heap.findMethod r name := by
    refine Heap.findMethod_congr hlimit (fun s => ?_) r
    by_cases hs : m.builtins.primitive p = s
    · subst hs
      have hself := get?_written_self (.cls hc) name v
      rw [hplain] at hself
      rw [Heap.class?_eq_some.2 hself, Heap.class?_eq_some.2 hc, hpool]
      rfl
    · have hget : q.heap.get? s = m.heap.get? s := (get?_written m _ name v s).trans (if_neg hs)
      unfold Heap.class?
      rw [hget, hpool]
  rw [property_of_primitive? ((Heap.primitive?_congr hfacet).trans hp), property_of_primitive? hp]
  exact lookup_congr rfl hfacet hmethod

/-! A machine with two classes. -/

/-- A machine with a name, an empty class, and a class with the empty one as its static method. -/
structure Shop where
  machine : Machine
  name : Value
  box : Ref
  crate : Ref

def shop (new : Machine) : Shop :=
  let name := new.intern "label"
  let box := name.2.heap.alloc (.cls { name := "Box" })
  let staticMethods := ({} : Table).set name.2.heap.pool name.1 (.ref box.1)
  let crate := box.2.alloc (.cls { name := "Crate", staticMethods })
  { machine := { name.2 with heap := crate.2 }, name := name.1, box := box.1, crate := crate.1 }

/-- What a machine with a shop is sure to have. -/
structure Shop.Stocked (s : Shop) (new : Machine) : Prop where
  wellFormed : s.machine.heap.WellFormed
  inOrder : s.machine.heap.InOrder
  holds : s.machine.heap.pool.Holds s.name
  text : ∃ i, s.name = .ref (.text i)
  box : s.machine.heap.get? s.box = some (.cls { name := "Box" })
  crate : ∃ c e, s.machine.heap.get? s.crate = some (.cls c) ∧
    c.staticMethods.entry? s.machine.heap.pool s.name = some e ∧ e.value = .ref s.box ∧
    e.kind = .value
  builtins : s.machine.builtins = new.builtins
  kept : ∀ r o, new.heap.get? r = some o → s.machine.heap.get? r = some o

theorem stocked_shop {new : Machine} (hwf : new.heap.WellFormed) (hordered : new.heap.InOrder) :
    (shop new).Stocked new := by
  have hnamed := hwf.intern "label"
  have hboxed := hnamed.alloc (.cls { name := "Box" })
  have hholds : (new.heap.intern "label").2.pool.Holds (.ref (new.heap.intern "label").1) :=
    holds_intern hwf "label"
  have hempty {p : Pool} : Table.InOrder p {} := Table.inOrder_empty
  have hstatic := hempty.insert hnamed.pool hholds
    (.ref ((new.heap.intern "label").2.alloc (.cls { name := "Box" })).1) .value
  refine ⟨hboxed.alloc _, ?_, hholds, ⟨_, rfl⟩, ?_, ?_, rfl, fun r o hr => ?_⟩
  · have hfirst := (hordered.intern hwf "label").alloc hnamed
      (inOrder_newClass _ "Box" none none)
    exact hfirst.alloc hboxed (Object.inOrder_cls hempty hstatic hempty hempty)
  · exact hboxed.get?_alloc_of_get? _ (Heap.get?_alloc_self hnamed _)
  · exact ⟨_, _, Heap.get?_alloc_self hboxed _,
      hempty.entry?_set_self hnamed.pool hholds rfl, rfl, rfl⟩
  · exact hboxed.get?_alloc_of_get? _ (hnamed.get?_alloc_of_get? _ hr)

section Shop

variable {new : Machine} {s : Shop}

/-- The machine with values on its stack. -/
def Shop.holding (s : Shop) (values : Array Value) : Machine := { s.machine with stack := values }

theorem Shop.set_ok (hstores : s.machine.StoresIn target r o) (hdict : ∀ d, o ≠ .dict d) :
    setProperty name (s.holding #[target, v]) =
      .ok () { s.machine.written r name v with stack := #[v] } := by
  have hstack : (s.holding #[target, v]).stack = ((#[] : Array Value).push target).push v := rfl
  exact setProperty_ok hstack (hstores.withStack #[target, v]) fun d hd => absurd hd (hdict d)

theorem refuses_absent (habsent : q.property target name = .absent) (host : Host) :
    ∃ e q', getProperty host name true { q with stack := #[target] } = .error (.raised e) q' := by
  have hstack : ({ q with stack := #[target] } : Machine).stack = (#[] : Array Value).push target :=
    rfl
  have hrefused : ∃ what, getProperty host name true { q with stack := #[target] } =
      misuse what { q with stack := #[target] } := getProperty_absent hstack habsent
  obtain ⟨what, hwhat⟩ := hrefused
  exact ⟨_, _, hwhat⟩

namespace Shop.Stocked

theorem hides_method (hs : s.Stocked new) :
    ∃ q, setProperty s.name (s.holding #[.ref s.box, .ref s.box]) = .ok () q ∧ ∀ host, ∃ e q',
      getProperty host s.name true { q with stack := #[.ref s.box] } = .error (.raised e) q' := by
  have hcallable : s.machine.isCallable (.ref s.box) = true := by
    simp [isCallable, Heap.object?, hs.box, Object.isCallable]
  have habsent : (s.machine.written s.box s.name (.ref s.box)).property (.ref s.box) s.name =
      .absent := by
    rw [property_written_class hs.box (Or.inl hcallable), property_of_class hs.box]
    rfl
  exact ⟨_, Shop.set_ok (.cls hs.box) (by simp), refuses_absent habsent⟩

theorem hides_behind_static (hs : s.Stocked new) :
    ∃ q, setProperty s.name (s.holding #[.ref s.crate, .bool true]) = .ok () q ∧ ∀ host,
      getProperty host s.name true { q with stack := #[.ref s.crate] } =
        .ok () { q with stack := #[.ref s.box] } := by
  obtain ⟨c, e, hcrate, he, hvalue, hkind⟩ := hs.crate
  refine ⟨_, Shop.set_ok (.cls hcrate) (by simp), fun host => ?_⟩
  let q : Machine := { s.machine.written s.crate s.name (.bool true) with stack := #[.ref s.crate] }
  let c' : Class := { c with statics := c.statics.set s.machine.heap.pool s.name (.bool true) }
  have hget : q.heap.get? s.crate = some (.cls c') :=
    get?_written_self (.cls hcrate) s.name (.bool true)
  have hclass : q.classOf? (.ref s.crate) = some c' := by simp only [classOf?, Heap.object?, hget]
  have hpool : q.heap.pool = s.machine.heap.pool := Heap.pool_update _ _
  have hfound : c'.static? q.heap.pool s.name = some e := by
    rw [hpool, Class.static?, he]
    rfl
  have hstack : q.stack = (#[] : Array Value).push (.ref s.crate) := rfl
  have hshown : getProperty host s.name true q = _ := getProperty_static hstack hclass hfound hkind
  rw [hvalue] at hshown
  exact hshown

theorem hides_static (hs : s.Stocked new) {c : Class}
    (hc : new.heap.get? (new.builtins.primitive .text) = some (.cls c))
    (hempty : c.methods.slots.isEmpty = true) (hroot : c.superclass = none) :
    ∃ q, setProperty s.name (s.holding #[s.name, .bool true]) = .ok () q ∧ ∀ host, ∃ e q',
      getProperty host s.name true { q with stack := #[s.name] } = .error (.raised e) q' := by
  obtain ⟨i, hi⟩ := hs.text
  have hget := hs.kept _ _ hc
  rw [← hs.builtins] at hget
  have hp : s.machine.heap.primitive? s.name = some .text := by
    rw [hi]
    rfl
  have hmethod : s.machine.heap.findMethod (s.machine.builtins.primitive .text) s.name =
      .absent := by
    rw [Heap.findMethod_eq_nearest, Heap.nearest_of_class? (Heap.class?_eq_some.2 hget), hroot,
      Table.entry?, if_pos hempty]
  have habsent : (s.machine.written (s.machine.builtins.primitive .text) s.name
      (.bool true)).property s.name s.name = .absent := by
    rw [property_written_plain hp hget rfl, property_of_primitive? hp]
    obtain ⟨hinstance, hdatum⟩ := datum_of_primitive? hp (by decide) s.name
    unfold lookup
    rw [hdatum, hinstance, hp]
    exact hmethod
  have hstores : s.machine.StoresIn s.name (s.machine.builtins.primitive .text) (.cls c) := by
    rw [hi] at hp ⊢
    exact .primitive hp (by simp [Heap.get?]) hget
  exact ⟨_, Shop.set_ok hstores (by simp), refuses_absent habsent⟩

/-- What is not a number equals no key, and so nothing is found under it. -/
theorem hides_nan (hs : s.Stocked new) {x : Float} (hnan : x.isNaN = true) :
    ∃ q, setProperty (.number x) (s.holding #[.ref s.box, .bool true]) = .ok () q ∧
      ∀ host, ∃ e q', getProperty host (.number x) true { q with stack := #[.ref s.box] } =
        .error (.raised e) q' := by
  have hsame : s.machine.heap.pool.sameKey (.number x) (.number x) = false := by
    rw [Bool.eq_false_iff]
    intro hsame
    rw [← Bool.not_eq_false] at hnan
    exact hnan (Pool.isNaN_of_sameKey hsame)
  have hpool : (s.machine.written s.box (.number x) (.bool true)).heap.pool = s.machine.heap.pool :=
    Heap.pool_update _ _
  let c : Class :=
    { name := "Box", statics := ({} : Table).set s.machine.heap.pool (.number x) (.bool true) }
  have hbox : (s.machine.written s.box (.number x) (.bool true)).heap.get? s.box = some (.cls c) :=
    get?_written_self (.cls hs.box) (.number x) (.bool true)
  have hstatic : c.statics.entry? s.machine.heap.pool (.number x) = none :=
    Table.inOrder_empty.entry?_set_of_ne hs.wellFormed.pool (by simp [Pool.Holds]) hsame
  have habsent : (s.machine.written s.box (.number x) (.bool true)).property (.ref s.box)
      (.number x) = .absent := by
    rw [property_of_class hbox, hpool, Class.static?, hstatic]
    rfl
  exact ⟨_, Shop.set_ok (.cls hs.box) (by simp), refuses_absent habsent⟩

end Shop.Stocked

end Shop

/-! The main result. -/

/-- How a property that was written reads. -/
inductive ReadBack (host : Host) (m : Machine) (target name v : Value) (q : Machine) : Prop where
  | inst {i : Instance} (htarget : m.heap.object? target = some (.inst i))
      (hshown : q.Shows host target name v)
  | dict {d : Dict} (htarget : m.heap.object? target = some (.dict d))
      (hshown : q.Shows host target name v)
  /-- A class shows what is not called, unless a static method has the name. What is called is a
  method. -/
  | cls {r : Ref} {c : Class} (htarget : target = .ref r) (hc : m.heap.class? r = some c)
      (hshown : m.isCallable v = false → c.staticMethods.entry? m.heap.pool name = none →
        q.Shows host target name v)
      (hmethod : m.isCallable v = true → ∃ e, q.heap.findMethod r name = .found e ∧ e.value = v)
      (hhidden : m.isCallable v = true ∨ c.staticMethods.entry? m.heap.pool name ≠ none →
        q.property target name = m.property target name)
  /-- Any other primitive value shows what is called, as its method. -/
  | primitive {p : Primitive} (htarget : m.heap.primitive? target = some p) (hp : p ≠ .dict)
      (hshown : m.isCallable v = true → q.ShowsBound host target name v)
      (hhidden : m.isCallable v = false → q.property target name = m.property target name)

theorem ReadBack.withStack (hread : ReadBack host m target name v q) (stack : Array Value) :
    ReadBack host m target name v { q with stack } := by
  cases hread with
  | inst htarget hshown => exact .inst htarget hshown
  | dict htarget hshown => exact .dict htarget hshown
  | cls htarget hc hshown hmethod hhidden => exact .cls htarget hc hshown hmethod hhidden
  | primitive htarget hp hshown hhidden => exact .primitive htarget hp hshown hhidden

theorem readBack_written (hwf : m.heap.WellFormed) (hordered : m.heap.InOrder)
    (hname : m.heap.pool.Holds name) (hnan : name.isNaN = false) (hstores : m.StoresIn target r o) :
    ReadBack host m target name v (m.written r name v) := by
  cases hstores with
  | inst hr => exact .inst hr (shows_inst hwf hordered hname hnan hr)
  | dict hr => exact .dict hr (shows_dict hwf hordered hname hnan hr)
  | cls hr =>
    refine .cls rfl (Heap.class?_eq_some.2 hr) (shows_static hwf hordered hname hnan hr) ?_
      (property_written_class hr)
    exact fun hcallable => ⟨_, findMethod_written hwf hordered hname hnan hr hcallable, rfl⟩
  | @primitive r p c hp hdict hc =>
    have hp' : p ≠ .dict := by
      rintro rfl
      obtain ⟨d, hd⟩ := Heap.exists_dict_of_primitive? hp
      exact hdict d hd
    exact .primitive hp hp' (showsBound_primitive hwf hordered hname hnan hp hp' hc)
      (property_written_plain hp hc)

/-- What was written as a property is read under its name, if the name is looked for where the value
was stored; if not, the name leads to what it led to before. Every other name does. -/
theorem written_property_reads_back (hwf : m.heap.WellFormed) (hordered : m.heap.InOrder)
    (hname : m.heap.pool.Holds name) (hnan : name.isNaN = false)
    (hstack : m.stack = (below.push target).push v) (hset : setProperty name m = .ok () q) :
    q.stack = below.push v ∧ ReadBack host m target name v q ∧
      ∀ other, m.heap.pool.sameKey name other = false →
        ∀ w, q.property w other = m.property w other := by
  obtain ⟨r, o, hstores, rfl⟩ := setProperty_cases hstack hset
  have hread : ReadBack host m target name v (m.written r name v) :=
    readBack_written hwf hordered hname hnan hstores
  exact ⟨rfl, hread.withStack (below.push v),
    fun other hother => property_written hwf hordered hname hother⟩

theorem written_property_reads_back_box :
    let s := shop (Machine.new {})
    let m := s.holding #[.ref s.box, .bool true]
    m.heap.WellFormed ∧ m.heap.InOrder ∧ m.heap.pool.Holds s.name ∧ s.name.isNaN = false ∧
      ∃ q, setProperty s.name m = .ok () q ∧ q.stack = #[.bool true] ∧
        (∀ host, ReadBack host m (.ref s.box) s.name (.bool true) q) ∧
        ∀ other, m.heap.pool.sameKey s.name other = false →
          ∀ w, q.property w other = m.property w other := by
  have hs := stocked_shop (sound_new {}).heap (inOrder_new {}).heap
  generalize Machine.new {} = new at hs ⊢
  intro s m
  obtain ⟨i, hi⟩ := hs.text
  have hnan : s.name.isNaN = false := by
    rw [hi]
    rfl
  have hset : setProperty s.name m = _ := Shop.set_ok (.cls hs.box) (by simp)
  have hstack : m.stack = ((#[] : Array Value).push (.ref s.box)).push (.bool true) := rfl
  have hread (host : Host) : _ ∧ ReadBack host m (.ref s.box) s.name (.bool true) _ ∧ _ :=
    written_property_reads_back hs.wellFormed hs.inOrder hs.holds hnan hstack hset
  exact ⟨hs.wellFormed, hs.inOrder, hs.holds, hnan, _, hset, rfl, fun host => (hread host).2.1,
    (hread Host.echo).2.2⟩

/-- A class shows neither what is called, nor what a static method of the name hides, nor what was
stored under a name that equals no key. A text does not show what is not called. -/
theorem property_not_read_back :
    let s := shop (Machine.new {})
    (∃ q, setProperty s.name (s.holding #[.ref s.box, .ref s.box]) = .ok () q ∧ ∀ host, ∃ e q',
      getProperty host s.name true { q with stack := #[.ref s.box] } = .error (.raised e) q') ∧
    (∃ q, setProperty s.name (s.holding #[.ref s.crate, .bool true]) = .ok () q ∧ ∀ host,
      getProperty host s.name true { q with stack := #[.ref s.crate] } =
        .ok () { q with stack := #[.ref s.box] }) ∧
    (∃ q, setProperty (.number (0 / 0)) (s.holding #[.ref s.box, .bool true]) = .ok () q ∧
      ∀ host, ∃ e q', getProperty host (.number (0 / 0)) true { q with stack := #[.ref s.box] } =
        .error (.raised e) q') ∧
    ∃ q, setProperty s.name (s.holding #[s.name, .bool true]) = .ok () q ∧ ∀ host, ∃ e q',
      getProperty host s.name true { q with stack := #[s.name] } = .error (.raised e) q' := by
  have htext : ((Machine.new {}).heap.class? ((Machine.new {}).builtins.primitive .text)).map
      (fun c => (c.methods.slots.isEmpty, c.superclass)) = some (true, none) := by decide +kernel
  have hstocked := stocked_shop (sound_new {}).heap (inOrder_new {}).heap
  generalize Machine.new {} = new at hstocked htext ⊢
  obtain ⟨c, hc, heq⟩ := Option.map_eq_some_iff.1 htext
  obtain ⟨hempty, hroot⟩ := Prod.mk.inj heq
  exact ⟨hstocked.hides_method, hstocked.hides_behind_static, hstocked.hides_nan (by decide),
    hstocked.hides_static (Heap.class?_eq_some.1 hc) hempty hroot⟩

end ScriptMachine.Machine
