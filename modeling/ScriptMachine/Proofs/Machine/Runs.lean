import ScriptMachine.Proofs.Machine.Coherence
import ScriptMachine.Proofs.Machine.Sessions

/-!
Runs. A run begins with the one call of a script or of a value that the host calls, and every step
collects if a collection is due and then takes one turn. So regions and completions fit the calls
in every machine of a run.
-/

namespace ScriptMachine.Machine

variable {host : Host} {m m' : Machine} {ms : Nat → Machine} {f : Frame} {rest : List Frame}
  {n t : Nat}

/-! A collection changes the heap only. -/

theorem collectIfDue_eq (m : Machine) : m.collectIfDue = { m with heap := m.collectIfDue.heap } := by
  unfold collectIfDue
  split <;> rfl

@[simp] theorem frames_collectIfDue (m : Machine) : m.collectIfDue.frames = m.frames := by
  rw [collectIfDue_eq]

@[simp] theorem regions_collectIfDue (m : Machine) : m.collectIfDue.regions = m.regions := by
  rw [collectIfDue_eq]

@[simp] theorem completions_collectIfDue (m : Machine) :
    m.collectIfDue.completions = m.completions := by
  rw [collectIfDue_eq]

@[simp] theorem opcode?_collectIfDue (m : Machine) : m.collectIfDue.opcode? = m.opcode? := by
  rw [collectIfDue_eq]
  rfl

theorem raised_collectIfDue (m : Machine) : m.collectIfDue.raised? = m.raised? := by
  rw [collectIfDue_eq]

theorem kept_collectIfDue (m : Machine) : Kept host m m.collectIfDue := by
  rw [collectIfDue_eq]
  exact ⟨rfl, rfl, fun _ => rfl⟩

theorem undisturbed_collectIfDue (m : Machine) : m.Undisturbed m.collectIfDue := by
  rw [collectIfDue_eq]
  exact ⟨rfl, rfl, rfl, rfl, rfl, fun _ h => h⟩

/-! Steps. -/

theorem step_outcome (hdiscreet : host.Discreet) (hframes : m.frames = f :: rest)
    (hm : m.Coherent) : Outcome host m.collectIfDue f (step host m) := by
  have hdue : m.collectIfDue.Coherent := (undisturbed_collectIfDue m).coherent hm
  have hsame : m.collectIfDue.frames = f :: rest := (frames_collectIfDue m).trans hframes
  unfold step
  rw [modify_bind]
  exact instruction_outcome hdiscreet hsame hdue.nested

/-- A run goes on only while a call is under way. -/
theorem exists_frame_of_step {r : Option Ending} (hstep : step host m = .ok r m') :
    ∃ f rest, m.frames = f :: rest := by
  cases hframes : m.frames with
  | cons f rest => exact ⟨f, rest, rfl⟩
  | nil =>
    have hdue : m.collectIfDue.frames = [] := (frames_collectIfDue m).trans hframes
    unfold step at hstep
    rw [modify_bind, instruction_of_nil host hdue] at hstep
    cases hstep

theorem turn_of_step (hdiscreet : host.Discreet) (hm : m.Coherent)
    (hstep : step host m = .ok none m') : Turn host m.collectIfDue m' := by
  obtain ⟨f, rest, hframes⟩ := exists_frame_of_step hstep
  have houtcome := step_outcome hdiscreet hframes hm
  rw [hstep] at houtcome
  cases houtcome with
  | turned hturn => exact hturn

/-! The first call of a run. -/

/-- The result of a call by the host, after its exception was thrown. -/
def Opens (host : Host) (count : Nat) (m : Machine) : EStateM.Result Signal Machine Unit → Prop
  | .ok _ m' =>
    Quiet host m m' ∨ ∃ base, base + count + 1 = m.stack.size ∧ Called host base m m'
  | .error s m' => s.isRaised = false ∧ Kept host m m'

theorem opens_callValue (hdiscreet : host.Discreet) (hsettled : m.Settled)
    (hframes : m.frames = []) (v : Value) (count : Nat) :
    Opens host count m (throwing () (callValue host v count) m) := by
  have hcalls : CallsOn host count m _ := callsOn_callValue v count m
  unfold throwing
  split
  · rename_i e q hraised
    rw [hraised] at hcalls
    have htraced : Quiet host m (q.attachTrace e) := hcalls.1.trans (quiet_attachTrace q e)
    have hleft := htraced.undisturbed hdiscreet hsettled
    have hregions : (q.attachTrace e).regions = [] := hleft.regions.trans (hsettled hframes).1
    have hthrown : Thrown host e [] (q.attachTrace e) (propagate e (q.attachTrace e)) := by
      unfold propagate
      rw [get_bind, hregions]
      exact thrown_propagateThrough e .nil nofun
    unfold throwValue
    rw [bind_assoc, modify_bind]
    revert hthrown
    cases hresult : propagate e (q.attachTrace e) with
    | ok a m' =>
      rintro ⟨gone, older, region, -, -, -, hnone, -⟩
      exact absurd hnone (by simp)
    | error s m' =>
      rintro ⟨hfinal, -, hkept⟩
      rw [bind_of_error hresult]
      exact ⟨hfinal, (htraced.kept hdiscreet hsettled).trans hkept⟩
  · rename_i hnot
    revert hcalls
    cases hresult : callValue host v count m with
    | ok a m' => exact id
    | error s m' =>
      rintro ⟨hquiet, -⟩
      refine ⟨?_, hquiet.kept hdiscreet hsettled⟩
      cases s with
      | raised e => exact absurd hresult (hnot e m')
      | _ => rfl

/-- A call that the host has begun, while no other is under way. -/
theorem exists_begun (hdiscreet : host.Discreet) (hsettled : m.Settled) (hframes : m.frames = [])
    {callee : Value} {count : Nat}
    (hcalled : throwing () (callValue host callee count) m = .ok () m') (hrunning : m'.frames ≠ []) :
    ∃ (q : Machine) (f : Frame), m.Undisturbed q ∧ m' = { q with frames := [f] } := by
  have hopens := opens_callValue hdiscreet hsettled hframes callee count
  rw [hcalled] at hopens
  rcases hopens with hquiet | ⟨base, -, hcalled⟩
  · have hleft := hquiet.undisturbed hdiscreet hsettled
    exact absurd (hleft.frames.trans hframes) hrunning
  · obtain ⟨q, r, proto, hquiet, rfl⟩ := hcalled.exists_quiet
    have hleft := hquiet.undisturbed hdiscreet hsettled
    exact ⟨q, _, hleft, by rw [hleft.frames.trans hframes]⟩

/-- A machine before the first instruction of a run. -/
inductive Launched (host : Host) : Machine → Prop where
  | script {m : Machine} (hframes : m.frames = []) (hsettled : m.Settled) (proto : Prototype) :
      Launched host (m.entered proto)
  | call {m m' : Machine} (hframes : m.frames = []) (hsettled : m.Settled) (callee : Value)
      (args : Array Value)
      (hcalled : throwing () (callValue host callee args.size)
        { m with stack := m.stack.push callee ++ args } = .ok () m')
      (hrunning : m'.frames ≠ []) : Launched host m'

namespace Launched

/-- A run begins with one call, outside all regions and finally blocks. -/
theorem first (hdiscreet : host.Discreet) (h : Launched host m) :
    (∃ f, m.frames = [f]) ∧ m.regions = [] ∧ m.completions = [] := by
  cases h with
  | @script m hframes hsettled proto =>
    obtain ⟨hregions, hcompletions, -⟩ := hsettled hframes
    have hfirst : (m.entered proto).frames = [_] := congrArg (List.cons _) hframes
    exact ⟨⟨_, hfirst⟩, hregions, hcompletions⟩
  | @call m m' hframes hsettled callee args hcalled hrunning =>
    have hplaced : ({ m with stack := m.stack.push callee ++ args } : Machine).Settled := hsettled
    obtain ⟨q, f, hleft, rfl⟩ := exists_begun hdiscreet hplaced hframes hcalled hrunning
    obtain ⟨hregions, hcompletions, -⟩ := hsettled hframes
    exact ⟨⟨f, rfl⟩, hleft.regions.trans hregions, hleft.completions.trans hcompletions⟩

theorem coherent (hdiscreet : host.Discreet) (h : Launched host m) : m.Coherent := by
  obtain ⟨-, hregions, hcompletions⟩ := h.first hdiscreet
  unfold Coherent
  rw [hregions, hcompletions]
  exact .empty _ _

end Launched

/-! Sequences of steps. -/

/-- Each of the first `n` machines makes a step to the next one. -/
def Follows (host : Host) (ms : Nat → Machine) (n : Nat) : Prop :=
  ∀ t < n, step host (ms t) = .ok none (ms (t + 1))

theorem Follows.coherent (hdiscreet : host.Discreet) (hfollows : Follows host ms n)
    (hlaunched : Launched host (ms 0)) (ht : t ≤ n) : (ms t).Coherent := by
  induction t with
  | zero => exact hlaunched.coherent hdiscreet
  | succ t ih =>
    have hm := ih (by omega)
    have hturn := turn_of_step hdiscreet hm (hfollows t (by omega))
    exact hturn.coherent hdiscreet ((undisturbed_collectIfDue _).coherent hm)

theorem Follows.turn (hdiscreet : host.Discreet) (hfollows : Follows host ms n)
    (hlaunched : Launched host (ms 0)) (ht : t < n) : Turn host (ms t).collectIfDue (ms (t + 1)) :=
  turn_of_step hdiscreet (hfollows.coherent hdiscreet hlaunched (by omega)) (hfollows t ht)

/-- The machines that steps lead to, as far as the run goes. -/
def states (host : Host) (m : Machine) : Nat → Machine
  | 0 => m
  | t + 1 => final (step host (states host m t))

/-- Whether a run goes on after the next step. -/
def goesOn (host : Host) (m : Machine) : Bool :=
  match step host m with
  | .ok none _ => true
  | _ => false

theorem follows_states (hon : ∀ t < n, goesOn host (states host m t) = true) :
    Follows host (states host m) n := by
  intro t ht
  have hnext := hon t ht
  unfold goesOn at hnext
  split at hnext
  · rename_i m' hstep
    rw [hstep, states, hstep]
    rfl
  · cases hnext

/-- A machine without classes and natives. -/
def bare : Machine := { heap := .new 1024 2 false, builtins := default }

end ScriptMachine.Machine
