import ScriptMachine.Proofs.Machine.PropertyWrites

/-!
Private names from outside. Reading a private member of an instance or a class is refused, and so is
calling a private method of an instance: a type error is raised, and nothing else happens. Calling
what is in a private field of an instance, or a private static member of a class, is not refused; it
is the same from outside as from the receiver itself.
-/

namespace ScriptMachine.Machine

variable {host : Host} {m : Machine} {below args : Array Value} {receiver name : Value} {e : Entry}
  {r : Ref} {c : Class} {kind : ExceptionKind}

/-! Refusals. -/

/-- A new exception was made, and nothing else was changed. -/
structure Refused (m : Machine) (kind : ExceptionKind) (e : Ref) (q : Machine) : Prop where
  fresh : ¬ m.heap.Occupied e
  cls : q.heap.instanceClass? (.ref e) = some (m.builtins.exception kind)
  kept : ∀ s o, m.heap.get? s = some o → q.heap.get? s = some o
  rest : q = { m with heap := q.heap }

/-- An action ends with a new exception and does nothing else. -/
def Refuses (m : Machine) (kind : ExceptionKind) (action : Exec Unit) : Prop :=
  ∃ e q, action m = .error (.raised (.ref e)) q ∧ m.Refused kind e q

theorem refuses_misuse (hwf : m.heap.WellFormed) (what : Misuse) :
    m.Refuses what.kind (misuse what) := by
  let o : Object := .inst { cls := m.builtins.exception what.kind }
  let stored := (m.heap.alloc o).2
  let e := (m.heap.alloc o).1
  let q := (m.makeException what.kind what.message).2
  have hget : ∃ f : Object → Object, (∀ i, ∃ fields, f (.inst i) = .inst { i with fields }) ∧
      ∀ s, q.heap.get? s = if e = s then (stored.get? s).map f else stored.get? s :=
    ⟨_, fun i => ⟨_, rfl⟩, Heap.get?_update e _⟩
  obtain ⟨f, hf, hget⟩ := hget
  have hself : stored.get? e = some o := Heap.get?_alloc_self hwf o
  refine ⟨e, q, rfl, Heap.not_occupied_alloc hwf o, ?_, fun s o' hs => ?_, rfl⟩
  · obtain ⟨fields, hfields⟩ := hf { cls := m.builtins.exception what.kind }
    unfold Heap.instanceClass? Heap.object?
    dsimp only
    rw [hget, if_pos rfl, hself, Option.map_some, hfields]
  · rw [hget, if_neg (Heap.ne_alloc_of_get? hwf o hs).symm]
    exact hwf.get?_alloc_of_get? o hs

/-! Members. -/

/-- A name is that of a field or method of an instance, or of a static member of a class. -/
inductive HasMember (m : Machine) (receiver name : Value) : Prop where
  | field {e : Entry} (he : m.fieldEntry? receiver name = some e)
  | method {r : Ref} {e : Entry} (hr : m.heap.instanceClass? receiver = some r)
      (he : m.heap.findMethod r name = .found e)
  | static {c : Class} {e : Entry} (hc : m.classOf? receiver = some c)
      (he : c.static? m.heap.pool name = some e)

/-- Members do not depend on the stack. -/
theorem HasMember.withStack (hmember : m.HasMember receiver name) (stack : Array Value) :
    ({ m with stack } : Machine).HasMember receiver name := by
  cases hmember with
  | field he => exact .field he
  | method hr he => exact .method hr he
  | static hc he => exact .static hc he

theorem instanceClass?_of_fieldEntry? (he : m.fieldEntry? receiver name = some e) :
    ∃ r, m.heap.instanceClass? receiver = some r := by
  obtain ⟨i, hi⟩ := exists_instance_of_fieldEntry? he
  exact ⟨i.cls, by simp only [Heap.instanceClass?, hi]⟩

theorem instanceClass?_of_classOf? (hc : m.classOf? receiver = some c) :
    m.heap.instanceClass? receiver = none := by
  obtain ⟨s, rfl, hs⟩ := classOf?_eq_some hc
  simp [Heap.instanceClass?, Heap.object?, Heap.class?_eq_some.1 hs]

section Private

variable (hprivate : m.heap.isPrivate name = true)

include hprivate

/-- Reading a private member is refused. -/
theorem getProperty_private (hwf : m.heap.WellFormed) (hstack : m.stack = below.push receiver)
    (hmember : m.HasMember receiver name) :
    m.Refuses .typeError (getProperty host name false) := by
  have hpeek : peek 0 m = .ok receiver m := peek_pushed hstack
  have hhidden : (!false && m.heap.isPrivate name) = true := hprivate
  have hinstance {r : Ref} (hr : m.heap.instanceClass? receiver = some r) :
      getProperty host name false m =
        misuse (.privateProperty (m.nameText name) (m.heap.className r)) m := by
    unfold getProperty
    rw [bind_of_ok hpeek, get_bind, hr]
    dsimp only
    unfold getOnInstance
    rw [get_bind, if_pos hhidden]
  cases hmember with
  | field he =>
    obtain ⟨r, hr⟩ := instanceClass?_of_fieldEntry? he
    unfold Refuses
    rw [hinstance hr]
    exact refuses_misuse hwf _
  | method hr _ =>
    unfold Refuses
    rw [hinstance hr]
    exact refuses_misuse hwf _
  | @static c e hc he =>
    have hclass : getProperty host name false m =
        misuse (.privateStatic (m.nameText name) c.name) m := by
      unfold getProperty
      rw [bind_of_ok hpeek, get_bind, instanceClass?_of_classOf? hc, hc]
      dsimp only
      unfold getOnClass
      rw [get_bind, he]
      dsimp only
      rw [if_pos hhidden]
    unfold Refuses
    rw [hclass]
    exact refuses_misuse hwf _

variable (hstack : m.stack = below.push receiver ++ args)

include hstack

/-- Calling a private method of an instance is refused. -/
theorem invoke_private (hwf : m.heap.WellFormed) (hr : m.heap.instanceClass? receiver = some r)
    (hfield : m.fieldEntry? receiver name = none) :
    m.Refuses .typeError (invoke host name args.size false) := by
  have hhidden : (!false && m.heap.isPrivate name) = true := hprivate
  have hinvoke : invoke host name args.size false m =
      misuse (.privateMethod (m.nameText name) (m.heap.className r)) m := by
    unfold invoke
    rw [bind_of_ok (peek_called hstack), bind_of_ok (calleeSlot_called hstack), get_bind, hr]
    dsimp only
    unfold invokeOnInstance
    rw [get_bind, hfield]
    dsimp only
    rw [if_pos hhidden]
  unfold Refuses
  rw [hinvoke]
  exact refuses_misuse hwf _

end Private

/-- Calling what is in a field, or a static member, is the same from outside. -/
theorem invoke_open (hstack : m.stack = below.push receiver ++ args)
    (hopen : (m.fieldEntry? receiver name).isSome = true ∨ (m.classOf? receiver).isSome = true) :
    invoke host name args.size false m = invoke host name args.size true m := by
  unfold invoke
  rw [bind_of_ok (peek_called hstack), bind_of_ok (calleeSlot_called hstack), get_bind,
    bind_of_ok (peek_called hstack), bind_of_ok (calleeSlot_called hstack), get_bind]
  rcases hopen with hfield | hclass
  · obtain ⟨e, he⟩ := Option.isSome_iff_exists.1 hfield
    obtain ⟨r, hr⟩ := instanceClass?_of_fieldEntry? he
    rw [hr]
    dsimp only
    unfold invokeOnInstance
    rw [get_bind, get_bind, he]
  · obtain ⟨c, hc⟩ := Option.isSome_iff_exists.1 hclass
    rw [instanceClass?_of_classOf? hc, hc]

/-! The main result. -/

/-- Reading a private member from outside is refused with a type error, and so is calling a private
method. Calling what is in a private field or a private static member is what it is from the
receiver itself. -/
theorem private_names_from_outside (host : Host) (hwf : m.heap.WellFormed)
    (hprivate : m.heap.isPrivate name = true) (hstack : m.stack = below.push receiver ++ args) :
    (m.HasMember receiver name →
      ({ m with stack := below.push receiver } : Machine).Refuses .typeError
        (getProperty host name false)) ∧
    ((m.heap.instanceClass? receiver).isSome = true → m.fieldEntry? receiver name = none →
      m.Refuses .typeError (invoke host name args.size false)) ∧
    ((m.fieldEntry? receiver name).isSome = true ∨ (m.classOf? receiver).isSome = true →
      invoke host name args.size false m = invoke host name args.size true m) := by
  refine ⟨fun hmember => ?_, fun hinstance hfield => ?_, invoke_open hstack⟩
  · exact getProperty_private hprivate hwf rfl (hmember.withStack (below.push receiver))
  · obtain ⟨r, hr⟩ := Option.isSome_iff_exists.1 hinstance
    exact invoke_private hprivate hstack hwf hr hfield

/-- A class with a private method and a private static member of one name, an instance of it, and an
instance that has a field of this name. -/
structure Keeper where
  machine : Machine
  name : Value
  box : Value
  bare : Value
  full : Value

namespace Keeper

/-- One value is on the stack. -/
def holding (k : Keeper) (v : Value) : Machine := { k.machine with stack := #[v] }

end Keeper

/-- Makes the three. -/
def withKeeper (m : Machine) (name : Value) : Keeper :=
  let run := m.heap.alloc (.native { name := "_run", arity := none, routine := .host "run" })
  let table := ({} : Table).set run.2.pool name (.ref run.1)
  let box := run.2.alloc (.cls { name := "Box", methods := table, statics := table })
  let bare := box.2.alloc (.inst { cls := box.1 })
  let full := bare.2.alloc (.inst { cls := box.1, fields := table })
  { machine := { m with heap := full.2 }
    name, box := .ref box.1, bare := .ref bare.1, full := .ref full.1 }

def keeper (new : Machine) : Keeper :=
  let name := new.intern "_run"
  withKeeper name.2 name.1

/-- What a machine with a keeper is sure to have. -/
structure Keeper.Furnished (k : Keeper) : Prop where
  wellFormed : k.machine.heap.WellFormed
  isPrivate : k.machine.heap.isPrivate k.name = true
  box : ∃ c e, k.machine.classOf? k.box = some c ∧ c.static? k.machine.heap.pool k.name = some e
  bare : ∃ r e, k.machine.heap.instanceClass? k.bare = some r ∧
    k.machine.fieldEntry? k.bare k.name = none ∧
    k.machine.heap.findMethod r k.name = .found e
  full : ∃ e, k.machine.fieldEntry? k.full k.name = some e

theorem furnished_withKeeper (hwf : m.heap.WellFormed) (hname : m.heap.pool.Holds name)
    (hnan : name.isNaN = false) (hprivate : m.heap.isPrivate name = true) :
    (withKeeper m name).Furnished := by
  let run : Object := .native { name := "_run", arity := none, routine := .host "run" }
  let ran := m.heap.alloc run
  let table := ({} : Table).set ran.2.pool name (.ref ran.1)
  let c : Class := { name := "Box", methods := table, statics := table }
  let boxed := ran.2.alloc (.cls c)
  let bared := boxed.2.alloc (.inst { cls := boxed.1 })
  let filled := bared.2.alloc (.inst { cls := boxed.1, fields := table })
  have hran : ran.2.WellFormed := hwf.alloc run
  have hboxed : boxed.2.WellFormed := hran.alloc (.cls c)
  have hbared : bared.2.WellFormed := hboxed.alloc _
  let e := Table.entryFor ran.2.pool name (.ref ran.1) .value
  have hentry : table.entry? filled.2.pool name = some e :=
    Table.inOrder_empty.entry?_set_self hran.pool hname hnan
  have hbox : filled.2.get? boxed.1 = some (.cls c) :=
    hbared.get?_alloc_of_get? _ (hboxed.get?_alloc_of_get? _ (Heap.get?_alloc_self hran (.cls c)))
  have hbare : filled.2.get? bared.1 = some (.inst { cls := boxed.1 }) :=
    hbared.get?_alloc_of_get? _ (Heap.get?_alloc_self hboxed _)
  have hfull : filled.2.get? filled.1 = some (.inst { cls := boxed.1, fields := table }) :=
    Heap.get?_alloc_self hbared _
  have hfound : filled.2.findMethod boxed.1 name = .found e := by
    rw [Heap.findMethod_eq_nearest, Heap.nearest_of_class? (Heap.class?_eq_some.2 hbox), hentry]
  refine ⟨hbared.alloc _, hprivate, ⟨c, e, ?_, hentry⟩, ⟨boxed.1, e, ?_, ?_, hfound⟩, e, ?_⟩
  · have hobject : (withKeeper m name).machine.heap.object? (withKeeper m name).box = _ := hbox
    rw [classOf?, hobject]
  · have hobject : filled.2.object? (.ref bared.1) = _ := hbare
    show filled.2.instanceClass? (.ref bared.1) = some boxed.1
    rw [Heap.instanceClass?, hobject]
  · have hobject : (withKeeper m name).machine.heap.object? (withKeeper m name).bare = _ := hbare
    unfold fieldEntry?
    rw [hobject]
    rfl
  · have hobject : (withKeeper m name).machine.heap.object? (withKeeper m name).full = _ := hfull
    unfold fieldEntry?
    rw [hobject]
    exact hentry

theorem private_names_from_outside_keeper :
    let k := keeper (Machine.new {})
    k.machine.heap.WellFormed ∧ k.machine.heap.isPrivate k.name = true ∧ ∀ host,
      (k.holding k.full).Refuses .typeError (getProperty host k.name false) ∧
      (k.holding k.bare).Refuses .typeError (getProperty host k.name false) ∧
      (k.holding k.box).Refuses .typeError (getProperty host k.name false) ∧
      (k.holding k.bare).Refuses .typeError (invoke host k.name 0 false) ∧
      invoke host k.name 0 false (k.holding k.full) =
        invoke host k.name 0 true (k.holding k.full) ∧
      invoke host k.name 0 false (k.holding k.box) =
        invoke host k.name 0 true (k.holding k.box) := by
  have hwf := (sound_new {}).heap
  generalize Machine.new {} = new at hwf ⊢
  intro k
  let named := new.heap.intern "_run"
  have hprivate : named.2.isPrivate (.ref named.1) = true := by
    have htext : named.2.pool.textOf? (.ref named.1) = some ⟨"_run", Hash.text "_run"⟩ :=
      hwf.pool.get?_intern_self "_run"
    rw [Heap.isPrivate, Heap.text?, htext]
    simp
  have hk : k.Furnished :=
    furnished_withKeeper (hwf.intern "_run") (holds_intern hwf "_run") rfl hprivate
  clear_value k
  obtain ⟨c, e, hc, he⟩ := hk.box
  obtain ⟨r, e', hr, hnone, he'⟩ := hk.bare
  obtain ⟨e'', hfull⟩ := hk.full
  have hstack (v : Value) : (k.holding v).stack = (#[] : Array Value).push v ++ #[] := rfl
  refine ⟨hk.wellFormed, hk.isPrivate, fun host => ?_⟩
  have hat (v : Value) :=
    private_names_from_outside (m := k.holding v) host hk.wellFormed hk.isPrivate (hstack v)
  obtain ⟨hgetFull, -, hcallFull⟩ := hat k.full
  obtain ⟨hgetBare, hcallBare, -⟩ := hat k.bare
  obtain ⟨hgetBox, -, hcallBox⟩ := hat k.box
  exact ⟨hgetFull (.field hfull), hgetBare (.method hr he'), hgetBox (.static hc he),
    hcallBare (Option.isSome_of_eq_some hr) hnone,
    hcallFull (Or.inl (Option.isSome_of_eq_some hfull)),
    hcallBox (Or.inr (Option.isSome_of_eq_some hc))⟩

end ScriptMachine.Machine
