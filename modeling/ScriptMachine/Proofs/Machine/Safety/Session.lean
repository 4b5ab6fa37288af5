import ScriptMachine.Proofs.Machine.Safety.Instruction
import ScriptMachine.Proofs.Machine.Sessions
import ScriptMachine.Proofs.Machine.StockNatives

/-!
Sessions of safe actions. A property of the heap that lasts outlives every request that stores no
class with a superclass and no bound method, and every activity whose instruction lets no class
inherit against it. The stock natives respect all such properties.
-/

namespace ScriptMachine

namespace Machine

variable {α : Type} {low : Prop} {I : Heap → Prop} {host : Host} {m : Machine}

/-- However a safe action ends, the property has lasted. -/
theorem GuardsAt.final {x : Exec α} (hx : GuardsAt low I m x) : I (final (x m)).heap := by
  unfold GuardsAt at hx
  revert hx
  cases x m with
  | ok a m' => exact id
  | error s m' => exact And.left

variable [hlasting : LastingOutsideDicts I]

/-! A new machine. -/

theorem lasts_allocEach {make : α → Object}
    (hmake : ∀ a, (make a).Loose ∧ (make a).isDict = false) (as : List α) (hm : I m.heap) :
    I (m.allocEach make as).2.heap := by
  induction as generalizing m with
  | nil => exact hm
  | cons a rest ih =>
    exact ih (m := (m.alloc (make a)).2) (hlasting.alloc hm (hmake a).1 (hmake a).2)

/-- All that a new machine stores is safe but the classes of the exceptions, which have a
superclass. -/
theorem lasts_new (settings : Settings)
    (hempty : I (Heap.new settings.gcInitialThreshold settings.gcGrowthFactor settings.stressGc))
    (hexceptions : ∀ (init : Value) (m : Machine), I m.heap →
      I (m.installExceptions init none ExceptionKind.all).2.heap) :
    I (Machine.new settings).heap := by
  unfold Machine.new
  dsimp only
  -- each stage gets a name before the next, so that nothing is evaluated
  generalize Heap.new settings.gcInitialThreshold settings.gcGrowthFactor settings.stressGc = h
    at hempty ⊢
  have hfirst := hlasting.intern "message" hempty
  generalize h.intern "message" = first at hfirst ⊢
  have hsecond := hlasting.intern "stacktrace" hfirst
  generalize first.2.intern "stacktrace" = second at hsecond ⊢
  generalize hm : ({
      settings, heap := second.2
      builtins :=
        { (default : Builtins) with message := first.1, stacktrace := second.1 } } : Machine) = m
  have hbare : I m.heap := hm ▸ hsecond
  have hplain (p : Primitive) : (Object.cls { name := p.name }).Loose ∧
      (Object.cls { name := p.name }).isDict = false := ⟨⟨nofun, rfl⟩, rfl⟩
  have hprimitives := lasts_allocEach hplain Primitive.all hbare
  generalize m.allocEach (fun p => .cls { name := p.name }) Primitive.all = primitives
    at hprimitives ⊢
  have hinit {n : NativeFunction} : I (primitives.2.alloc (.native n)).2.heap :=
    hlasting.alloc hprimitives ⟨nofun, rfl⟩ rfl
  exact hexceptions _ _ hinit

/-! Requests and activities. -/

theorem lasts_defineGlobal (hm : I m.heap) (name : String) (v : Value) :
    I (m.defineGlobal name v).heap := hlasting.intern name hm

theorem lasts_installBootstrap (hm : I m.heap) (args : List String) :
    I (m.installBootstrap args).heap := by
  have hstreams (streams : List String) {m : Machine} (hm : I m.heap) :
      I (streams.foldl (fun m stream =>
        (m.intern stream.toLower).2.defineGlobal stream (m.intern stream.toLower).1) m).heap := by
    induction streams generalizing m with
    | nil => exact hm
    | cons stream rest ih =>
      exact ih (lasts_defineGlobal (m := (m.intern stream.toLower).2) (hlasting.intern _ hm) _ _)
  have hitems : I (m.internAll args).2.heap := lasts_internAll args hm
  have hargv : I ((m.internAll args).2.alloc (.array (m.internAll args).1.toArray)).2.heap :=
    hlasting.alloc hitems ⟨nofun, rfl⟩ rfl
  exact hstreams _ (lasts_defineGlobal hargv _ _)

/-- What a request stores is loose and no dict, or the property outlives it. -/
theorem lasts_request (hm : I m.heap) (q : Request)
    (hstored : ∀ o, q = .alloc o → o.Loose ∧ o.isDict = false ∨ I (m.heap.alloc o).2) :
    I (q.perform m).heap := by
  cases q with
  | alloc o => exact (hstored o rfl).elim (fun ho => hlasting.alloc hm ho.1 ho.2) id
  | intern text => exact hlasting.intern text hm
  | defineGlobal name v => exact lasts_defineGlobal hm name v
  | defineNative n =>
    exact lasts_defineGlobal (m := (m.alloc (.native n)).2) (hlasting.alloc hm ⟨nofun, rfl⟩ rfl) _ _
  | definePrimitive p n kind =>
    have hnative := hlasting.alloc (o := .native n) (hlasting.intern n.name hm) ⟨nofun, rfl⟩ rfl
    refine hlasting.update hnative (fun o _ => ?_) fun o _ => ?_
    · cases o <;> rfl
    · cases o with
      | cls c => exact Or.inr ⟨rfl, rfl⟩
      | _ => exact Or.inl rfl
  | makeSwitch cases default? exit => exact hlasting.alloc hm ⟨nofun, rfl⟩ rfl
  | makeException kind message => exact lasts_makeException hm kind message
  | raise e => exact hm
  | pin v => exact hm
  | unpin v =>
    show I (m.unpin v).2.heap
    unfold unpin
    dsimp only
    split <;> exact hm
  | redirect output errors => exact hm
  | installBootstrap args => exact lasts_installBootstrap hm args

theorem lasts_entered (hm : I m.heap) (proto : Prototype) : I (m.entered proto).heap :=
  hlasting.alloc (hlasting.alloc hm ⟨nofun, rfl⟩ rfl) ⟨nofun, rfl⟩ rfl

omit hlasting in
theorem guards_takeResult : Guards low I takeResult :=
  guards_pop.bind fun v => Guards.bind (guards_modify fun _ hm => hm) fun _ => guards_pure v

/-- An instruction has to keep the property by itself. -/
theorem lasts_activity [host.Respects I] (hm : I m.heap) (a : Activity)
    (hinstruction : a = .instruction → I (final (instruction host m)).heap) :
    I (a.perform host m).heap := by
  cases a with
  | enter proto => exact lasts_entered hm proto
  | call callee args =>
    have hcall : GuardsAt True I { m with stack := m.stack.push callee ++ args }
        (callValue host callee args.size) :=
      guardsAbove_callValue callee args.size _ hm (Or.inl trivial)
    exact (hcall.throwing ()).final
  | instruction => exact hinstruction rfl
  | takeResult =>
    have htake : GuardsAt True I m takeResult := guards_takeResult m hm
    exact htake.final
  | reset => exact lasts_reset hm

end Machine

namespace Host

open Machine

variable {I : Heap → Prop} [hlasting : LastingOutsideDicts I] {m : Machine}

theorem lasts_raise (hm : I m.heap) (kind : ExceptionKind) (message : String) :
    I (raise kind message m).2.heap := lasts_makeException hm kind message

theorem lasts_answer (hm : I m.heap) (v : Verdict) : I (answer v m).2.heap := by
  cases v with
  | failed f => exact lasts_raise hm _ _
  | _ => exact hm

/-- The stock natives store neither classes nor bound methods. -/
instance respects_stock : (stock .closed).Respects I where
  native name receiver args m hm := by
    have hperformed := performed_stock .closed name receiver args m
    generalize stock .closed name receiver args m = outcome at hperformed ⊢
    cases hperformed with
    | gives | throws | nothing => exact hm
    | gathers => exact hlasting.alloc hm ⟨nofun, rfl⟩ rfl
    | interns text => exact hlasting.intern text hm
    | raises kind message => exact lasts_raise hm kind message
    | raisesAndCollects kind message => exact hlasting.collect _ (lasts_raise hm kind message)
    | defines name i => exact lasts_defineGlobal hm name _
    | collects => exact hlasting.collect _ hm
    | calls | runs => exact lasts_answer hm _

end Host

end ScriptMachine
