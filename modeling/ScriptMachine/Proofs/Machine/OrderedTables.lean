import ScriptMachine.Machine.Session
import ScriptMachine.Proofs.Heap.OrderedTables
import ScriptMachine.Proofs.Machine.Construction

/-!
Machines whose tables are in order: those of the heap, and the globals. A new machine is one, and it
stays one while the host stores objects and binds names.
-/

namespace ScriptMachine.Machine

/-- Every table of the machine is in order. -/
structure InOrder (m : Machine) : Prop where
  heap : m.heap.InOrder
  globals : m.globals.InOrder m.heap.pool

variable {α : Type} {m : Machine} {o : Object}

theorem InOrder.alloc (hm : m.InOrder) (hwf : m.heap.WellFormed)
    (ho : ∀ t ∈ o.tables, t.InOrder m.heap.pool) : (m.alloc o).2.InOrder :=
  ⟨hm.heap.alloc hwf ho, hm.globals⟩

theorem InOrder.intern (hm : m.InOrder) (hwf : m.heap.WellFormed) (text : String) :
    (m.intern text).2.InOrder :=
  ⟨hm.heap.intern hwf text, hm.globals.intern hwf.pool text⟩

/-- The text that was just interned is held. -/
theorem holds_intern (hwf : m.heap.WellFormed) (text : String) :
    (m.intern text).2.heap.pool.Holds (m.intern text).1 := by
  rintro i ⟨⟩
  exact ⟨_, hwf.pool.get?_intern_self text⟩

theorem InOrder.defineGlobal (hm : m.InOrder) (hwf : m.heap.WellFormed) (name : String)
    (value : Value) : (m.defineGlobal name value).InOrder := by
  have hnamed := hm.intern hwf name
  exact ⟨hnamed.heap, hnamed.globals.insert (hwf.intern name).pool (holds_intern hwf name) value _⟩

theorem InOrder.defineNative (hm : m.InOrder) (hwf : m.heap.WellFormed) (n : NativeFunction) :
    (m.defineNative n).2.InOrder :=
  (hm.alloc (o := .native n) hwf nofun).defineGlobal (hwf.alloc (.native n)) n.name _

theorem InOrder.definePrimitive (hm : m.InOrder) (hwf : m.heap.WellFormed) (p : Primitive)
    (n : NativeFunction) (kind : EntryKind) : (m.definePrimitive p n kind).2.InOrder := by
  have hnamed := hm.intern hwf n.name
  have hmade := hnamed.alloc (o := .native n) (hwf.intern n.name) nofun
  refine ⟨hmade.heap.update fun o ho t ht => ?_, ?_⟩
  · have htables := hmade.heap _ o ho
    cases o with
    | cls c =>
      simp only [Object.tables, List.forall_mem_cons] at htables
      obtain ⟨hmethods, hstatic, hdefaults, hstatics, -⟩ := htables
      have hinsert := hmethods.insert (hwf.intern n.name).pool (holds_intern hwf n.name)
        (((m.intern n.name).2.alloc (.native n)).1) kind
      simp only [Object.tables, List.mem_cons, List.not_mem_nil, or_false] at ht
      rcases ht with rfl | rfl | rfl | rfl
      · exact hinsert
      · exact hstatic
      · exact hdefaults
      · exact hstatics
    | _ => exact htables t ht
  · show Table.InOrder (Heap.update _ _ _).pool _
    rw [Heap.pool_update]
    exact hmade.globals

/-! A new machine. -/

/-- A new class has empty tables. -/
theorem inOrder_newClass (pool : Pool) (name : String) (superclass : Option Ref)
    (constructor? : Option Value) :
    ∀ t ∈ (Object.cls { name, superclass, constructor? }).tables, t.InOrder pool :=
  Object.inOrder_cls Table.inOrder_empty Table.inOrder_empty Table.inOrder_empty Table.inOrder_empty

theorem InOrder.allocEach (hm : m.InOrder) (hwf : m.heap.WellFormed) {make : α → Object}
    (hmake : ∀ a p, ∀ t ∈ (make a).tables, t.InOrder p) (as : List α) :
    (m.allocEach make as).2.InOrder ∧ (m.allocEach make as).2.heap.WellFormed := by
  induction as generalizing m with
  | nil => exact ⟨hm, hwf⟩
  | cons a rest ih => exact ih (hm.alloc hwf (hmake a _)) (hwf.alloc (make a))

theorem InOrder.installExceptions (hm : m.InOrder) (hwf : m.heap.WellFormed) (init : Value)
    (root : Option Ref) (kinds : List ExceptionKind) :
    (m.installExceptions init root kinds).2.InOrder := by
  induction kinds generalizing m root with
  | nil => exact hm
  | cons kind rest ih =>
    have hstored := hm.alloc hwf (inOrder_newClass _ kind.name root (some init))
    exact ih (hstored.defineGlobal (hwf.alloc _) kind.name _) ((hwf.alloc _).intern kind.name) _

/-- A machine without globals gets its classes. -/
theorem InOrder.equipped {primitives : List (Primitive × Ref) × Machine} {init : Value × Machine}
    {exceptions : List (ExceptionKind × Ref) × Machine} {n : NativeFunction} (hm : m.InOrder)
    (hwf : m.heap.WellFormed)
    (hprimitives : m.allocEach (fun p => .cls { name := p.name }) Primitive.all = primitives)
    (hinit : primitives.2.alloc (.native n) = init)
    (hexceptions : init.2.installExceptions init.1 none ExceptionKind.all = exceptions)
    {builtins : Builtins} : ({ exceptions.2 with builtins } : Machine).InOrder := by
  let make : Primitive → Object := fun p => .cls { name := p.name }
  have hmake : ∀ p pool, ∀ t ∈ (make p).tables, t.InOrder pool :=
    fun p pool => inOrder_newClass pool p.name none none
  obtain ⟨hfirst, hheap⟩ := hm.allocEach hwf hmake Primitive.all
  rw [hprimitives] at hfirst hheap
  have hsecond := hfirst.alloc (o := .native n) hheap nofun
  have hheap' : (primitives.2.alloc (.native n)).2.heap.WellFormed := hheap.alloc (.native n)
  rw [hinit] at hsecond hheap'
  have hthird := hsecond.installExceptions hheap' init.1 none ExceptionKind.all
  rw [hexceptions] at hthird
  exact ⟨hthird.heap, hthird.globals⟩

/-- The tables of a new machine are in order. -/
theorem inOrder_new (settings : Settings) : (Machine.new settings).InOrder := by
  unfold Machine.new
  dsimp only
  -- each stage gets a name before the next, so that nothing is evaluated
  have hempty := (Heap.founded_new settings.gcInitialThreshold settings.gcGrowthFactor
    settings.stressGc).wellFormed
  have hnone := Heap.get?_new settings.gcInitialThreshold settings.gcGrowthFactor settings.stressGc
  generalize Heap.new settings.gcInitialThreshold settings.gcGrowthFactor settings.stressGc = h
    at hempty hnone ⊢
  have hordered : h.InOrder := fun r o ho => absurd (ho.symm.trans (hnone r)) nofun
  have hsecond := (hordered.intern hempty "message").intern (hempty.intern "message") "stacktrace"
  have hwf := (hempty.intern "message").intern "stacktrace"
  generalize h.intern "message" = first at hsecond hwf ⊢
  generalize first.2.intern "stacktrace" = second at hsecond hwf ⊢
  generalize hm : ({
      settings, heap := second.2
      builtins :=
        { (default : Builtins) with message := first.1, stacktrace := second.1 } } : Machine) = m
  have hbare : m.InOrder ∧ m.heap.WellFormed := by
    rw [← hm]
    exact ⟨⟨hsecond, Table.inOrder_empty⟩, hwf⟩
  generalize hprimitives : m.allocEach (fun p => .cls { name := p.name }) Primitive.all = primitives
  generalize hinit : primitives.2.alloc (.native _) = init
  generalize hexceptions : init.2.installExceptions init.1 none ExceptionKind.all = exceptions
  exact hbare.1.equipped hbare.2 hprimitives hinit hexceptions

end ScriptMachine.Machine
