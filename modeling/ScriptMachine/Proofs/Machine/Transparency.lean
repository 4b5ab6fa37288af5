import ScriptMachine.Proofs.Code.Validity
import ScriptMachine.Proofs.Machine.Renaming.Run
import ScriptMachine.Proofs.Machine.Renaming.Sameness
import ScriptMachine.Proofs.Machine.Renaming.StockNatives
import Mathlib

/-!
When collections happen cannot be told. Two machines that differ only in when they collect run a
script to the same outcome, with the same output and reports, and with globals that are the same but
for a renaming of references.
-/

namespace ScriptMachine

/-- When a machine collects: what is set, and the threshold it has come to. -/
structure Tuning where
  initialThreshold : Nat
  growthFactor : Nat
  stress : Bool
  threshold : Nat
deriving Inhabited

/-- The same objects and texts, collected at other times. -/
def Heap.tuned (h : Heap) (t : Tuning) : Heap :=
  { h with
    threshold := t.threshold
    leastThreshold := t.initialThreshold
    growth := max t.growthFactor 1
    stress := t.stress }

/-- The settings of collections. -/
def Settings.tuned (s : Settings) (t : Tuning) : Settings :=
  { s with
    gcInitialThreshold := t.initialThreshold
    gcGrowthFactor := t.growthFactor
    stressGc := t.stress }

/-- The same machine, but for when it collects. -/
def Machine.tuned (m : Machine) (t : Tuning) : Machine :=
  { m with settings := m.settings.tuned t, heap := m.heap.tuned t }

namespace Heap

variable {h : Heap}

theorem Composed.tuned (hh : h.Composed) (t : Tuning) : (h.tuned t).Composed :=
  ⟨⟨hh.wellFormed.objects, hh.wellFormed.pool⟩,
    ⟨hh.rest.gray, hh.rest.objects, hh.rest.texts⟩, hh.inOrder, hh.closures⟩

end Heap

namespace Validation

theorem functionDefect?_tuned (h : Heap) (t : Tuning) (unseen : List Nat) (todo : List Value) :
    functionDefect? (h.tuned t) unseen todo = functionDefect? h unseen todo := by
  have hobjects (i : Nat) : (h.tuned t).objects.get? i = h.objects.get? i := rfl
  have hlocal (blob : Blob) : localDefect? (h.tuned t) blob = localDefect? h blob := rfl
  fun_induction functionDefect? h unseen todo with
  | case1 => rw [functionDefect?]
  | case2 unseen i rest proto hproto hi found hfound =>
    rw [functionDefect?, hobjects, hproto]
    simp only [hi, dite_true, hlocal, hfound]
  | case3 unseen i rest proto hproto hi hnone ih =>
    rw [functionDefect?, hobjects, hproto]
    simp only [hi, dite_true, hlocal, hnone, ih]
  | case4 unseen i rest proto hproto hi ih =>
    rw [functionDefect?, hobjects, hproto]
    simp only [hi, dite_false, ih]
  | case5 unseen i rest hother ih =>
    rw [functionDefect?, hobjects]
    split
    · exact absurd ‹_› (hother _)
    · exact ih
  | case6 unseen v rest hother ih =>
    rw [functionDefect?]
    · exact ih
    · exact hother

theorem check_tuned (h : Heap) (t : Tuning) (blob : Blob) :
    check (h.tuned t) blob = check h blob := by
  unfold check
  rw [functionDefect?_tuned]
  rfl

end Validation

/-- The outcomes of two runs are the same but for the renaming, and so is what a host sees of the
machines: the texts written, the globals, and how values are shown. -/
structure Renaming.Matches (ρ : Renaming) (p q : Verdict × Machine) : Prop where
  verdict : ρ.Alike p.1 q.1
  machines : ρ.Mirrors p.2 q.2
  output : p.2.output = q.2.output
  errors : p.2.errors = q.2.errors
  globals : ρ.Alike p.2.globals q.2.globals
  global? : ∀ name, ρ.Alike (p.2.global? name) (q.2.global? name)
  shown : ∀ v w, ρ.Alike v w →
    p.2.render v = q.2.render w ∧ p.2.typeName v = q.2.typeName w

namespace Renaming

variable {ρ : Renaming} {p q : Verdict × Machine}

theorem Mirrors.matches (hm : ρ.Mirrors p.2 q.2) (hvw : ρ.Alike p.1 q.1) : ρ.Matches p q where
  verdict := hvw
  machines := hm
  output := hm.state.output
  errors := hm.state.errors
  globals := hm.state.globals
  global? := hm.global?
  shown _ _ hvw := ⟨hm.render hvw, hm.typeName hvw⟩

theorem Mirrors.inOrder {m n : Machine} (hm : ρ.Mirrors m n) : m.InOrder where
  heap := hm.heap.left.inOrder
  globals := by
    rw [hm.heap.leftPool]
    exact hm.state.globals.left

theorem Concur.cases (h : Concur p q) :
    p.1 = .unfinished ∧ q.1 = .unfinished ∨ ∃ ρ : Renaming, ρ.Matches p q := by
  cases h with
  | unfinished => exact Or.inl ⟨rfl, rfl⟩
  | same hvw hm => exact Or.inr ⟨_, hm.matches hvw⟩

end Renaming

namespace Machine

variable {host : Host} {m : Machine} {proto : Prototype}

/-! A new machine is tuned by its settings. -/

theorem tuned_allocEach {α : Type} (t : Tuning) (make : α → Object) (as : List α) (m : Machine) :
    (m.tuned t).allocEach make as =
      ((m.allocEach make as).1, (m.allocEach make as).2.tuned t) := by
  induction as generalizing m with
  | nil => rfl
  | cons a rest ih =>
    have hmade : ({ m.tuned t with heap := ((m.tuned t).heap.alloc (make a)).2 } : Machine) =
        ({ m with heap := (m.heap.alloc (make a)).2 } : Machine).tuned t := rfl
    unfold allocEach
    dsimp only
    rw [hmade, ih]
    rfl

theorem tuned_installExceptions (t : Tuning) (init : Value) (root : Option Ref)
    (kinds : List ExceptionKind) (m : Machine) :
    (m.tuned t).installExceptions init root kinds =
      ((m.installExceptions init root kinds).1,
        (m.installExceptions init root kinds).2.tuned t) := by
  induction kinds generalizing m root with
  | nil => rfl
  | cons kind rest ih =>
    have hmade (o : Object) (r : Ref) :
        ({ m.tuned t with heap := ((m.tuned t).heap.alloc o).2 } : Machine).defineGlobal kind.name
            (.ref r) =
          (({ m with heap := (m.heap.alloc o).2 } : Machine).defineGlobal kind.name (.ref r)).tuned
            t := rfl
    unfold installExceptions
    dsimp only
    rw [hmade, ih]
    rfl

/-- Machines made with other settings for collections differ in when they collect. -/
theorem tuned_new (s : Settings) (t : Tuning) (ht : t.threshold = t.initialThreshold) :
    (Machine.new s).tuned t = Machine.new (s.tuned t) := by
  have hempty : Heap.new t.initialThreshold t.growthFactor t.stress =
      (Heap.new s.gcInitialThreshold s.gcGrowthFactor s.stressGc).tuned t := by
    unfold Heap.new Heap.tuned
    rw [ht]
  have hintern (h : Heap) (text : String) :
      (h.tuned t).intern text = ((h.intern text).1, (h.intern text).2.tuned t) := rfl
  have halloc (m : Machine) (o : Object) :
      (m.tuned t).alloc o = ((m.alloc o).1, (m.alloc o).2.tuned t) := rfl
  unfold Machine.new
  dsimp only [Settings.tuned]
  rw [hempty]
  -- each stage gets a name before the next, so that nothing is evaluated
  generalize Heap.new s.gcInitialThreshold s.gcGrowthFactor s.stressGc = h
  rw [hintern]
  generalize h.intern "message" = first
  rw [hintern]
  generalize first.2.intern "stacktrace" = second
  dsimp only
  generalize hm : ({
      settings := s, heap := second.2
      builtins :=
        { (default : Builtins) with message := first.1, stacktrace := second.1 } } : Machine) = m
  have hbare : ({
      settings := s.tuned t, heap := second.2.tuned t
      builtins :=
        { (default : Builtins) with message := first.1, stacktrace := second.1 } } : Machine) =
      m.tuned t := by
    rw [← hm]
    rfl
  unfold Settings.tuned at hbare
  rw [hbare, tuned_allocEach]
  generalize m.allocEach (fun p => .cls { name := p.name }) Primitive.all = primitives
  dsimp only
  rw [halloc]
  generalize primitives.2.alloc (.native _) = init
  dsimp only
  rw [tuned_installExceptions]
  generalize init.2.installExceptions init.1 none ExceptionKind.all = exceptions
  rfl

/-! Scripts. -/

/-- The two machines are the same but for the renaming that pairs every reference with itself. -/
theorem Sound.mirrors_tuned (hsound : m.Sound) (hordered : m.InOrder) (t : Tuning) :
    (Renaming.sameness (hsound.composed hordered) ((hsound.composed hordered).tuned t)
      rfl).Mirrors m (m.tuned t) :=
  have hsettings : m.settings.limits = (m.settings.tuned t).limits := rfl
  hsound.mirrors hordered ((hsound.composed hordered).tuned t) rfl (fun _ _ => id) hsettings

theorem concur_run (hhost : host.Uniform Renaming.Anew) (hsound : m.Sound) (hordered : m.InOrder)
    (hconstants : ∀ v ∈ proto.blob.constants, m.heap.OccupiedValue v) (t : Tuning) (fuel : Nat) :
    Renaming.Concur (run host fuel proto m) (run host fuel proto (m.tuned t)) := by
  have hm := hsound.mirrors_tuned hordered t
  have hcheck : Validation.check (m.tuned t).heap proto.blob = Validation.check m.heap proto.blob :=
    Validation.check_tuned m.heap t proto.blob
  have hframes : (m.tuned t).frames = m.frames := rfl
  unfold run
  rw [hcheck, hframes]
  split
  · exact .same (.failed _) hm
  · cases Validation.check m.heap proto.blob with
    | error f => exact .same (.failed f) hm
    | ok _ =>
      obtain ⟨σ, hσ⟩ := hm.entered (Prototype.alike_self fun v hv r hr =>
        Renaming.sameness_pairs (hconstants v hv r hr))
      exact Renaming.concur_runSteps hhost fuel hσ

/-- A run that comes to an end leaves every table in order. -/
theorem InOrder.run (hordered : m.InOrder) (hhost : host.Uniform Renaming.Anew) (hsound : m.Sound)
    (hconstants : ∀ v ∈ proto.blob.constants, m.heap.OccupiedValue v) {fuel : Nat}
    (hended : (run host fuel proto m).1 ≠ .unfinished) : (run host fuel proto m).2.InOrder := by
  have hconcur := concur_run hhost hsound hordered hconstants default fuel
  generalize Machine.run host fuel proto (m.tuned default) = q at hconcur
  generalize Machine.run host fuel proto m = p at hconcur hended ⊢
  cases hconcur with
  | unfinished => exact absurd rfl hended
  | same _ hm => exact hm.inOrder

/-- Machines that differ in when they collect run a script to outcomes that cannot be told apart. -/
theorem run_tuned (hhost : host.Uniform Renaming.Anew) (hsound : m.Sound) (hordered : m.InOrder)
    (hconstants : ∀ v ∈ proto.blob.constants, m.heap.OccupiedValue v) (t : Tuning) (fuel : Nat) :
    (run host fuel proto m).1 = .unfinished ∧ (run host fuel proto (m.tuned t)).1 = .unfinished ∨
      ∃ ρ : Renaming, ρ.Matches (run host fuel proto m) (run host fuel proto (m.tuned t)) :=
  (concur_run hhost hsound hordered hconstants t fuel).cases

/-- A machine with one class for all built-in ones, and with a native that collects. -/
def withCollect : Machine :=
  let empty : Machine := { heap := .new 1024 2 false, builtins := default }
  let collect : NativeFunction := { name := "collect", arity := some 0, routine := .host "collect" }
  ((empty.alloc (.cls { name := "Error" })).2.alloc (.native collect)).2

theorem sound_withCollect : withCollect.Sound ∧ withCollect.InOrder := by
  let empty : Machine := { heap := .new 1024 2 false, builtins := default }
  have hempty : empty.Founded :=
    ⟨Heap.founded_new _ _ _, Table.forall_refs_empty, rfl, rfl, rfl, rfl, rfl, rfl, rfl⟩
  have hordered : empty.InOrder :=
    ⟨fun r o ho => absurd ho (by rw [Heap.get?_new]; nofun), Table.inOrder_empty⟩
  have hnone : (Object.cls { name := "Error" }).refs = [] := rfl
  have hclassed := (hempty.alloc (fun r hr => absurd (hnone ▸ hr) List.not_mem_nil) rfl).1
  have hfounded : withCollect.Founded :=
    (hclassed.alloc (fun r hr => absurd hr List.not_mem_nil) rfl).1
  have hclasses := hordered.alloc hempty.heap.wellFormed (inOrder_newClass _ "Error" none none)
  have hsound : ({ withCollect with builtins := default } : Machine).Sound :=
    hfounded.sound rfl rfl (fun _ => rfl) fun _ => rfl
  exact ⟨hsound, hclasses.alloc hclassed.heap.wellFormed nofun⟩

/-- Drops an array, makes another one, collects and returns the second array. -/
def collectScript : Blob :=
  let dropped := ((({} : Blob).pushOp .makeArray 1).pushShort 0 1).pushOp .pop 1
  let made := (dropped.pushOp .makeArray 1).pushShort 0 1
  let called := (((made.pushOp .pushConst 1).pushShort 0 1).pushOp .call 1).pushByte 0 1
  { (called.pushOp .pop 1).pushOp .ret 1 with constants := #[.ref (.object 1)] }

/-- A machine that collects all the time puts the second array into the slot of the first. -/
theorem run_tuned_collectScript :
    let script : Prototype := .script collectScript
    let stressed : Tuning := ⟨0, 1, true, 0⟩
    (run .reticent 8 script withCollect).1 = .ended (.returned (.ref (.object 5))) ∧
      (run .reticent 8 script (withCollect.tuned stressed)).1 =
        .ended (.returned (.ref (.object 4))) ∧
      ∃ ρ : Renaming, ρ.Matches (run .reticent 8 script withCollect)
        (run .reticent 8 script (withCollect.tuned stressed)) := by
  intro script stressed
  obtain ⟨hsound, hordered⟩ := sound_withCollect
  have hconstants : ∀ v ∈ script.blob.constants, withCollect.heap.OccupiedValue v := by
    intro v hv r hr
    obtain rfl := List.mem_singleton.1 (Array.mem_toList_iff.2 hv)
    obtain rfl := List.mem_singleton.1 hr
    rfl
  have hended : (run .reticent 8 script withCollect).1 = .ended (.returned (.ref (.object 5))) := by
    cbv
  have hstressed : (run .reticent 8 script (withCollect.tuned stressed)).1 =
      .ended (.returned (.ref (.object 4))) := by cbv
  refine ⟨hended, hstressed, ?_⟩
  rcases run_tuned Host.uniform_reticent hsound hordered hconstants stressed 8 with
    ⟨hunfinished, -⟩ | hmatches
  · rw [hended] at hunfinished
    cases hunfinished
  · exact hmatches

end Machine

end ScriptMachine
