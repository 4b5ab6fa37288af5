import ScriptMachine.Proofs.Machine.PropertyWrites

/-!
Defaults of instances. A new instance gets its fields from the classes of its chain: under each name
the entry of the nearest class that has a default for it. The fields are its own, so that what is
stored in them later is seen in no class and in no other instance.
-/

namespace ScriptMachine.Machine

variable {host : Host} {m p q : Machine} {below args : Array Value} {r s this : Ref} {c : Class}
  {classes rest : List Class} {name v : Value}

/-! Calling a class. -/

/-- A class was called: an instance of it was made, and nothing else was changed. -/
structure Instantiated (m : Machine) (r : Ref) (classes : List Class) (this : Ref) (q : Machine) :
    Prop where
  fresh : ¬ m.heap.Occupied this
  cls : q.heap.instanceClass? (.ref this) = some r
  fields : ∀ name, q.fieldEntry? (.ref this) name =
    classes.findSome? fun c => c.defaults.entry? m.heap.pool name
  kept : ∀ s, s ≠ this → q.heap.get? s = m.heap.get? s

/-- The instance takes the place of the class below the arguments, and the constructor runs. -/
theorem callValue_class {fields : Table} (hc : m.heap.class? r = some c)
    (hfields : m.heap.initialFields? r = some fields)
    (hstack : m.stack = below.push (.ref r) ++ args) :
    let made := m.alloc (.inst { cls := r, fields })
    callValue host (.ref r) args.size m = construct host c below.size made.1 args.size
      { made.2 with stack := below.push made.1 ++ args } := by
  intro made
  have hcallee : m.heap.callee? (.ref r) = some (.cls r c) := by
    simp only [Heap.callee?, Heap.class?_eq_some.1 hc]
  have hunbind : m.heap.unbind m.heap.linkLimit none (.ref r) = some (none, .ref r) := by
    unfold Heap.unbind
    rw [hcallee]
  have hplaced : setSlot below.size made.1 made.2 =
      .ok () { made.2 with stack := below.push made.1 ++ args } := setSlot_called hstack
  unfold callValue
  rw [get_bind, hunbind]
  dsimp only
  unfold callTarget
  rw [hcallee]
  dsimp only
  unfold instantiate
  rw [bind_of_ok (calleeSlot_called hstack), get_bind, hfields]
  dsimp only
  rw [modifyGet_bind]
  exact bind_of_ok hplaced _

theorem instantiated_alloc (hwf : m.heap.WellFormed) (hordered : m.heap.InOrder)
    (hchain : m.heap.ChainOf r classes) :
    ∃ fields, m.heap.initialFields? r = some fields ∧
      m.Instantiated r classes (m.heap.alloc (.inst { cls := r, fields })).1
        (m.alloc (.inst { cls := r, fields })).2 := by
  have htables (c : Class) (hc : c ∈ classes) : c.defaults.InOrder m.heap.pool := by
    obtain ⟨s, hs⟩ := hchain.exists_class? hc
    exact hordered s _ (Heap.class?_eq_some.1 hs) _ (by simp [Object.tables])
  obtain ⟨fields, hfields, -, hentry⟩ := hchain.initialFields? hwf.pool htables
  refine ⟨fields, hfields, ?_⟩
  let o : Object := .inst { cls := r, fields }
  have hself : (m.heap.alloc o).2.get? (m.heap.alloc o).1 = some o := Heap.get?_alloc_self hwf o
  refine ⟨Heap.not_occupied_alloc hwf o, ?_, fun name => ?_, fun s hs => ?_⟩
  · show (m.heap.alloc o).2.instanceClass? (.ref (m.heap.alloc o).1) = some r
    simp only [Heap.instanceClass?, Heap.object?, hself, o]
  · have hobject : (m.alloc o).2.heap.object? (.ref (m.heap.alloc o).1) = some o := hself
    unfold fieldEntry?
    rw [hobject]
    exact hentry name
  · exact (Heap.get?_alloc hwf o s).trans (if_neg hs)

/-! Later writes. -/

/-- Stores a field and drops what that leaves on the stack. -/
def storeField (this name v : Value) : Exec Unit := do
  push this
  push v
  setProperty name
  drop 1

/-- Stores fields one after the other. -/
def storeFields (this : Value) : List (Value × Value) → Exec Unit
  | [] => pure ()
  | (name, v) :: rest => do
    storeField this name v
    storeFields this rest

theorem drop_pushed (hstack : m.stack = below.push v) :
    drop 1 m = .ok () { m with stack := below } := by
  have hdropped : m.stack.shrink (m.stack.size - 1) = below := by simp [hstack]
  have hheld : 1 ≤ m.stack.size := by simp [hstack]
  unfold drop
  rw [get_bind, if_pos hheld, hdropped]
  rfl

/-- A write of a field changes the instance and nothing else. -/
theorem storeField_ok (hinstance : p.heap.instanceClass? (.ref this) = some r) (name v : Value) :
    ∃ p', storeField (.ref this) name v p = .ok () p' ∧ p'.stack = p.stack ∧
      p'.heap.instanceClass? (.ref this) = some r ∧
      ∀ s, s ≠ this → p'.heap.get? s = p.heap.get? s := by
  obtain ⟨i, hi, rfl⟩ : ∃ i, p.heap.get? this = some (.inst i) ∧ i.cls = r := by
    unfold Heap.instanceClass? Heap.object? at hinstance
    split at hinstance
    · next i hi => exact ⟨i, hi, Option.some.inj hinstance⟩
    · cases hinstance
  let start : Machine := { p with stack := (p.stack.push (.ref this)).push v }
  have hstores : start.StoresIn (.ref this) this (.inst i) := .inst hi
  have hset : setProperty name start =
      .ok () { start.written this name v with stack := p.stack.push v } :=
    setProperty_ok rfl hstores nofun
  refine ⟨{ start.written this name v with stack := p.stack }, ?_, rfl, ?_, fun s hs => ?_⟩
  · unfold storeField push
    rw [modify_bind, modify_bind, bind_of_ok hset, drop_pushed rfl]
  · have hget := get?_written_self hstores name v
    show Heap.instanceClass? (start.written this name v).heap _ = _
    simp only [Heap.instanceClass?, Heap.object?, hget, Object.taking]
  · exact (get?_written start this name v s).trans (if_neg (Ne.symm hs))

theorem storeFields_ok (hinstance : p.heap.instanceClass? (.ref this) = some r)
    (writes : List (Value × Value)) :
    ∃ p', storeFields (.ref this) writes p = .ok () p' ∧
      ∀ s, s ≠ this → p'.heap.get? s = p.heap.get? s := by
  induction writes generalizing p with
  | nil => exact ⟨p, rfl, fun _ _ => rfl⟩
  | cons w rest ih =>
    obtain ⟨p₁, hok, -, hinstance₁, hkept₁⟩ := storeField_ok hinstance w.1 w.2
    obtain ⟨p₂, hok₂, hkept₂⟩ := ih hinstance₁
    refine ⟨p₂, ?_, fun s hs => (hkept₂ s hs).trans (hkept₁ s hs)⟩
    unfold storeFields
    rw [bind_of_ok hok, hok₂]

/-! The main result. -/

/-- Calling a class gives an instance whose fields are the defaults of the nearest classes, before
its constructor runs. What is stored in the fields of that instance later changes no class and no
other instance. -/
theorem instance_takes_nearest_defaults (hwf : m.heap.WellFormed) (hordered : m.heap.InOrder)
    (hchain : m.heap.ChainOf r (c :: rest)) (hstack : m.stack = below.push (.ref r) ++ args) :
    ∃ this q, callValue host (.ref r) args.size m =
        construct host c below.size (.ref this) args.size q ∧
      q.stack = below.push (.ref this) ++ args ∧ m.Instantiated r (c :: rest) this q ∧
      ∀ p, p.heap.instanceClass? (.ref this) = some r → ∀ writes,
        ∃ p', storeFields (.ref this) writes p = .ok () p' ∧
          ∀ s, s ≠ this → p'.heap.get? s = p.heap.get? s := by
  obtain ⟨fields, hfields, hmade⟩ := instantiated_alloc hwf hordered hchain
  exact ⟨_, _, callValue_class hchain.class?_eq hfields hstack, rfl,
    ⟨hmade.fresh, hmade.cls, hmade.fields, hmade.kept⟩,
    fun p hp writes => storeFields_ok hp writes⟩

/-- A chain of three classes of which the first and the second have a default for one name. -/
structure Kin where
  machine : Machine
  name : Value
  base : Class
  middle : Class
  derived : Class
  /-- The last class. -/
  cls : Ref

def kin (new : Machine) : Kin :=
  let name := new.intern "label"
  let defaults (v : Value) : Table := ({} : Table).set name.2.heap.pool name.1 v
  let base : Class := { name := "Base", defaults := defaults (.bool true) }
  let first := name.2.heap.alloc (.cls base)
  let middle : Class :=
    { name := "Middle", superclass := some first.1, defaults := defaults (.bool false) }
  let second := first.2.alloc (.cls middle)
  let derived : Class := { name := "Derived", superclass := some second.1 }
  let third := second.2.alloc (.cls derived)
  { machine := { name.2 with heap := third.2, stack := #[.ref third.1] }
    name := name.1, base, middle, derived, cls := third.1 }

theorem chainOf_kin {new : Machine} (hwf : new.heap.WellFormed) (hordered : new.heap.InOrder) :
    let k := kin new
    k.machine.heap.WellFormed ∧ k.machine.heap.InOrder ∧
      k.machine.heap.ChainOf k.cls [k.derived, k.middle, k.base] ∧
      k.middle.defaults.entry? k.machine.heap.pool k.name =
        some (Table.entryFor k.machine.heap.pool k.name (.bool false) .value) := by
  intro k
  have hnamed := hwf.intern "label"
  have hfirst := hnamed.alloc (.cls k.base)
  have hsecond := hfirst.alloc (.cls k.middle)
  have hholds : (new.heap.intern "label").2.pool.Holds k.name := holds_intern hwf "label"
  have hempty : Table.InOrder (new.heap.intern "label").2.pool {} := Table.inOrder_empty
  have hdefaults (v : Value) := hempty.insert hnamed.pool hholds v .value
  have hbase := (hordered.intern hwf "label").alloc (o := .cls k.base) hnamed
    (Object.inOrder_cls hempty hempty (hdefaults (.bool true)) hempty)
  have hmiddle := hbase.alloc (o := .cls k.middle) hfirst
    (Object.inOrder_cls hempty hempty (hdefaults (.bool false)) hempty)
  have hderived := hmiddle.alloc (o := .cls k.derived) hsecond
    (Object.inOrder_cls hempty hempty hempty hempty)
  have hlast := Heap.get?_alloc_self hsecond (.cls k.derived)
  have hsecond' := hsecond.get?_alloc_of_get? (.cls k.derived)
    (Heap.get?_alloc_self hfirst (.cls k.middle))
  have hfirst' := hsecond.get?_alloc_of_get? (.cls k.derived)
    (hfirst.get?_alloc_of_get? (.cls k.middle) (Heap.get?_alloc_self hnamed (.cls k.base)))
  refine ⟨hsecond.alloc _, hderived, ?_, hempty.entry?_set_self hnamed.pool hholds rfl⟩
  exact .child (Heap.class?_eq_some.2 hlast) rfl (.child (Heap.class?_eq_some.2 hsecond') rfl
    (.root (Heap.class?_eq_some.2 hfirst') rfl))

theorem instance_takes_nearest_defaults_kin :
    let k := kin (Machine.new {})
    k.machine.heap.WellFormed ∧ k.machine.heap.InOrder ∧
      k.machine.heap.ChainOf k.cls [k.derived, k.middle, k.base] ∧
      ∀ host, ∃ this q, callValue host (.ref k.cls) 0 k.machine =
          construct host k.derived 0 (.ref this) 0 q ∧
        (q.fieldEntry? (.ref this) k.name).map Entry.value = some (.bool false) := by
  have hkin := chainOf_kin (sound_new {}).heap (inOrder_new {}).heap
  generalize Machine.new {} = new at hkin ⊢
  intro k
  obtain ⟨hwf, hordered, hchain, hmiddle⟩ := hkin
  refine ⟨hwf, hordered, hchain, fun host => ?_⟩
  have hstack : k.machine.stack = (#[] : Array Value).push (.ref k.cls) ++ #[] := rfl
  obtain ⟨this, q, hcall, -, hmade, -⟩ :=
    instance_takes_nearest_defaults hwf hordered hchain hstack
  refine ⟨this, q, hcall, ?_⟩
  have hderived : k.derived.defaults.entry? k.machine.heap.pool k.name = none :=
    Table.entry?_empty _ _
  rw [hmade.fields k.name, List.findSome?_cons, hderived]
  dsimp only
  rw [List.findSome?_cons, hmiddle]
  rfl

end ScriptMachine.Machine
