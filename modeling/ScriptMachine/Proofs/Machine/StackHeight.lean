import ScriptMachine.Proofs.Code.Operands
import ScriptMachine.Proofs.Machine.Activations
import ScriptMachine.Proofs.Machine.Safety.Instruction

/-!
The height of the stack. A step goes on, ends the run, fails with a fault, or does not end because the
heap runs in circles. It leaves the stack in one case only: where a member of a superclass is invoked
and the stack does not hold the superclass, the arguments and the receiver below them. Calls and all
other invocations look for the callee first, and a stack that is too low is a fault.
-/

namespace ScriptMachine.Machine

open World

variable {α : Type} {host : Host} {m m' : Machine} {f : Frame} {rest : List Frame}

/-! No exception is left over. -/

theorem raisesNothing_modify (g : Machine → Machine) :
    RaisesNothing (modify g : Exec Unit) := fun _ _ _ herror => nomatch herror

theorem raisesNothing_settle (s : Search α) : RaisesNothing (settle s) := by
  intro m t q herror
  cases s with
  | found a => cases herror
  | absent => cases herror
  | endless =>
    obtain ⟨rfl, -⟩ := EStateM.Result.error.inj herror
    rfl

theorem raisesNothing_jumpTo (offset : Nat) : RaisesNothing (jumpTo offset) := by
  refine raisesNothing_read fun m => ?_
  split
  · exact raisesNothing_set _
  · exact raisesNothing_fault

theorem raisesNothing_unhandled (e : Value) : RaisesNothing (unhandled e : Exec α) :=
  raisesNothing_read fun _ => (raisesNothing_set _).bind fun _ => raisesNothing_fault

theorem raisesNothing_accepts (region : Region) (e : Value) :
    RaisesNothing (accepts region e) := by
  unfold accepts
  split
  · exact raisesNothing_pure _
  · exact raisesNothing_read fun _ => (raisesNothing_settle _).bind fun _ => raisesNothing_pure _

theorem raisesNothing_propagateThrough (e : Value) (regions : List Region) :
    RaisesNothing (propagateThrough e regions) := by
  induction regions with
  | nil => exact (raisesNothing_modify _).bind fun _ => raisesNothing_unhandled e
  | cons region rest ih =>
    refine (raisesNothing_modify _).bind fun _ => (raisesNothing_accepts region e).bind fun _ => ?_
    split
    · exact (raisesNothing_modify _).bind fun _ => raisesNothing_jumpTo _
    · exact (raisesNothing_modify _).bind fun _ => raisesNothing_jumpTo _
    · exact (raisesNothing_modify _).bind fun _ => raisesNothing_jumpTo _
    · exact ih

theorem raisesNothing_throwValue (e : Value) : RaisesNothing (throwValue e) :=
  (raisesNothing_modify _).bind fun _ =>
    raisesNothing_read fun _ => raisesNothing_propagateThrough e _

theorem raisesNothing_throwing (resume : α) (action : Exec α) :
    RaisesNothing (throwing resume action) := by
  intro m s q herror
  unfold throwing at herror
  split at herror
  · exact ((raisesNothing_throwValue _).bind fun _ => raisesNothing_pure resume) _ s q herror
  · next hnot =>
    cases s with
    | raised e => exact absurd herror (hnot e q)
    | _ => rfl

theorem raisesNothing_leaveFrame (value : Value) : RaisesNothing (leaveFrame value) := by
  refine raisesNothing_read fun m => ?_
  split
  · exact raisesNothing_fault
  · refine (raisesNothing_set _).bind fun _ => ?_
    split
    · exact raisesNothing_pure _
    · exact (raisesNothing_modify _).bind fun _ => raisesNothing_pure _

theorem raisesNothing_returnThrough (value : Value) (depth : Nat) (regions : List Region) :
    RaisesNothing (returnThrough value depth regions) := by
  induction regions with
  | nil => exact raisesNothing_leaveFrame value
  | cons region rest ih =>
    unfold returnThrough
    split
    · refine (raisesNothing_modify _).bind fun _ => ?_
      split
      · refine (raisesNothing_modify _).bind fun _ => (raisesNothing_modify _).bind fun _ => ?_
        exact (raisesNothing_jumpTo _).bind fun _ => raisesNothing_pure _
      · exact ih
    · exact raisesNothing_leaveFrame value

/-- What an instruction raises is thrown, and throwing it raises nothing. -/
theorem raisesNothing_step (host : Host) : RaisesNothing (step host) := by
  refine (raisesNothing_modify _).bind fun _ => raisesNothing_frame.bind fun f => ?_
  split
  · refine RaisesNothing.bind (raisesNothing_read fun _ => ?_) fun _ => raisesNothing_pure _
    exact raisesNothing_returnThrough _ _ _
  · refine raisesNothing_fetchByte.bind fun byte => ?_
    split
    · exact raisesNothing_throwing none _
    · exact raisesNothing_fault

/-! Safety of every step. -/

instance lasting_true : Lasting fun _ => True where
  alloc _ _ := trivial
  intern _ _ := trivial
  update _ _ := trivial
  collect _ _ := trivial

instance respects_true (host : Host) : host.Respects fun _ => True := ⟨fun _ _ _ _ _ => trivial⟩

/-- How many arguments the next instruction calls with, if it looks for its callee on the stack. -/
def callCount? (m : Machine) : Option Nat :=
  m.frames.head?.bind fun f =>
    match m.opcode? with
    | some .call => (f.proto.blob.byteAt? (f.ip + 1)).map UInt8.toNat
    | some .invoke | some .invokeSelf =>
      (f.proto.blob.constantAt? (f.ip + 1)).bind fun _ =>
        (f.proto.blob.byteAt? (f.ip + 3)).map UInt8.toNat
    | _ => none

theorem step_eq (host : Host) (m : Machine) : step host m = instruction host m.collectIfDue := rfl

theorem underfed_collectIfDue (m : Machine) : m.collectIfDue.Underfed ↔ m.Underfed := by
  unfold Underfed superCount? opcode?
  rw [frames_collectIfDue, stack_collectIfDue]

/-- Why a step ends with a signal. -/
inductive StepFails (m : Machine) : Signal → Machine → Prop where
  | fault (f : Fault) (m' : Machine) : StepFails m (.fault f) m'
  | endless {m' : Machine} (hcircular : m'.heap.Circular) : StepFails m .endless m'
  | crash (m' : Machine) (hunderfed : m.Underfed) : StepFails m .crash m'

theorem stepFails {s : Signal} (hstep : step host m = .error s m') : m.StepFails s m' := by
  have hguarded : GuardsAt m.collectIfDue.Underfed (fun _ => True) m.collectIfDue
      (instruction host) :=
    guardsAt_instruction trivial (fun _ _ _ _ _ => trivial) (fun _ _ _ _ _ => trivial)
      fun _ _ _ => inferInstance
  unfold GuardsAt at hguarded
  rw [← step_eq, hstep] at hguarded
  cases s with
  | fault f => exact .fault f m'
  | raised e => exact absurd (raisesNothing_step host m _ _ hstep) nofun
  | endless => exact .endless hguarded.2
  | crash => exact .crash m' ((underfed_collectIfDue m).1 hguarded.2)

theorem throwing_of_fault {resume : α} {action : Exec α} {fault : Fault}
    (h : action m = .error (.fault fault) m') :
    throwing resume action m = .error (.fault fault) m' := by
  unfold throwing
  rw [h]

/-- A call that looks for its callee on a stack that is too low is a fault. -/
theorem instruction_underflow {count : Nat} (hcount : m.callCount? = some count)
    (hlow : m.stack.size ≤ count) :
    ∃ m', instruction host m = .error (.fault (.internal .stackUnderflow)) m' := by
  unfold callCount? at hcount
  obtain ⟨f, hhead, hcount⟩ := Option.bind_eq_some_iff.1 hcount
  obtain ⟨rest, hframes⟩ := List.head?_eq_some_iff.1 hhead
  have hinvoke {op : Opcode} (hlayout : op.layout = .invoke) (hop : m.opcode? = some op)
      (hread : (f.proto.blob.constantAt? (f.ip + 1)).bind (fun _ =>
        (f.proto.blob.byteAt? (f.ip + 3)).map UInt8.toNat) = some count)
      (hperform : ∀ name n, ∃ fromSelf, perform host ⟨f.ip, op, .invoke name n, 0⟩ =
        proceed (constant name >>= fun v => invoke host v n.toNat fromSelf)) :
      ∃ m', instruction host m = .error (.fault (.internal .stackUnderflow)) m' := by
    obtain ⟨v, hv, hread⟩ := Option.bind_eq_some_iff.1 hread
    obtain ⟨name, hname, hv⟩ := Option.bind_eq_some_iff.1 hv
    obtain ⟨n, hn, rfl⟩ := Option.map_eq_some_iff.1 hread
    obtain ⟨fromSelf, hperform⟩ := hperform name n
    let behind := m.atOffset (f.ip + 4)
    have hpeek : peek n.toNat behind = .error (.fault (.internal .stackUnderflow)) behind :=
      peek_of_le hlow
    refine ⟨behind, ?_⟩
    rw [instruction_eq hframes hop]
    apply throwing_of_fault
    rw [execute_invoke hframes hlayout hname hn hv, hperform, proceed_bind (constant_eq hframes hv)]
    unfold invoke proceed
    rw [bind_assoc, bind_of_error hpeek]
  split at hcount
  · next hop =>
    obtain ⟨n, hn, rfl⟩ := Option.map_eq_some_iff.1 hcount
    let behind := m.atOffset (f.ip + 2)
    have hpeek : peek n.toNat behind = .error (.fault (.internal .stackUnderflow)) behind :=
      peek_of_le hlow
    refine ⟨behind, ?_⟩
    rw [instruction_eq hframes hop]
    apply throwing_of_fault
    rw [execute_byte hframes (w := 0) rfl hn]
    show proceed (peek n.toNat >>= fun v => callValue host v n.toNat) behind = _
    unfold proceed
    rw [bind_assoc, bind_of_error hpeek]
  · next hop => exact hinvoke rfl hop hcount fun _ _ => ⟨false, rfl⟩
  · next hop => exact hinvoke rfl hop hcount fun _ _ => ⟨true, rfl⟩
  · cases hcount

/-- A step either goes on, ends the run, fails with a fault or comes upon a circle, unless a member of
a superclass is invoked on a stack that is too low for it. A stack that is too low for a call or for
any other invocation is a fault. -/
theorem step_within_stack (host : Host) (m : Machine) :
    (∀ s m', step host m = .error s m' → m.StepFails s m') ∧
    ∀ count, m.callCount? = some count → m.stack.size ≤ count →
      ∃ m', step host m = .error (.fault (.internal .stackUnderflow)) m' := by
  refine ⟨fun s m' hstep => stepFails hstep, fun count hcount hlow => ?_⟩
  have hcount' : m.collectIfDue.callCount? = some count := by
    unfold callCount? opcode? at hcount ⊢
    rw [frames_collectIfDue]
    exact hcount
  rw [step_eq]
  exact instruction_underflow hcount' (by rwa [stack_collectIfDue])

/-- A constructor that gathers its arguments. -/
def gatherer : Prototype := { name := "init", kind := .initializer, variadic := true }

/-- A machine with a class of that constructor. -/
def withGatherer : Machine :=
  let function := bare.heap.alloc (.function gatherer)
  let closure := function.2.alloc (.closure { function := function.1, proto := gatherer, upvalues := [] })
  let cls : Class := { name := "Parent", constructor? := some (.ref closure.1) }
  { bare with heap := (closure.2.alloc (.cls cls)).2 }

/-- A script that runs the constructor on five arguments that it has not pushed. -/
def overdrawnScript : Blob :=
  let pushed := (({ constants := #[.ref (.object 2)] } : Blob).pushOp .pushConst 1).pushShort 0 1
  (pushed.pushOp .superConstructor 1).pushByte 5 1

/-- Whether the next step leaves the stack. -/
def leavesStack (host : Host) (m : Machine) : Bool :=
  match step host m with
  | .error .crash _ => true
  | _ => false

theorem exists_crash (h : leavesStack host m = true) : ∃ m', step host m = .error .crash m' := by
  unfold leavesStack at h
  split at h
  · next m' hstep => exact ⟨m', hstep⟩
  · cases h

/-- The script is accepted, and its last step leaves the stack. -/
theorem step_within_stack_overdrawnScript :
    let m := states .idle (withGatherer.entered (.script overdrawnScript)) 1
    Validation.check withGatherer.heap overdrawnScript = .ok () ∧
      (∃ m', step .idle m = .error .crash m') ∧ m.Underfed := by
  intro m
  have hcheck : Validation.check withGatherer.heap overdrawnScript = .ok () := by cbv
  obtain ⟨m', hcrash⟩ : ∃ m', step .idle m = .error .crash m' :=
    exists_crash (by decide +kernel)
  cases (step_within_stack .idle m).1 .crash m' hcrash with
  | crash _ hunderfed => exact ⟨hcheck, ⟨m', hcrash⟩, hunderfed⟩

end ScriptMachine.Machine
