import ScriptMachine.Proofs.Machine.FinallyBlocks
import Mathlib

/-!
A machine is idle again after every run and every call, whichever way they end. Where the last call
returns, it takes the whole stack along, since the first call of a run begins at the bottom of the
stack; everywhere else the machine is reset.
-/

namespace ScriptMachine

/-- Whether there is an outcome within the bound. -/
def Verdict.isFinished : Verdict → Bool
  | unfinished => false
  | _ => true

namespace Machine

variable {host : Host} {m m' first : Machine} {f : Frame} {rest : List Frame}

/-- Nothing runs and nothing is left of a run but globals, the heap and what was written. -/
structure Idle (m : Machine) : Prop where
  frames : m.frames = []
  stack : m.stack = #[]
  regions : m.regions = []
  completions : m.completions = []
  openUpvalues : m.openUpvalues = []
  raised : m.raised? = none

theorem Idle.settled (h : m.Idle) : m.Settled :=
  fun _ => ⟨h.regions, h.completions, h.openUpvalues⟩

/-- The machine is idle, and nothing has changed that no action changes. -/
structure Rested (host : Host) (first m : Machine) : Prop where
  idle : m.Idle
  kept : Kept host first m

/-! Closing variables. -/

theorem closeCells_zero (stack : Array Value) (opened : List Ref) (h : Heap) :
    (closeCells stack 0 opened h).1 = [] := by
  induction opened generalizing h with
  | nil => rfl
  | cons r rest ih =>
    unfold closeCells
    split
    · rw [if_neg (Nat.not_lt_zero _)]
      exact ih _
    · exact ih _

theorem openUpvalues_closeUpvalues_zero (m : Machine) : (m.closeUpvalues 0).openUpvalues = [] :=
  closeCells_zero m.stack m.openUpvalues m.heap

theorem rested_reset (hkept : Kept host first m) : Rested host first m.reset :=
  ⟨⟨rfl, rfl, rfl, rfl, openUpvalues_closeUpvalues_zero m, rfl⟩, hkept.trans (kept_reset m)⟩

/-! Runs. -/

/-- A machine in the middle of a run whose first call began at the bottom of the stack. -/
structure Running (host : Host) (first m : Machine) : Prop where
  coherent : m.Coherent
  bottom : m.calls.getLast?.map Frame.base = some 0
  raised : m.raised? = none
  kept : Kept host first m

/-- What a turn does not steer comes from a quiet change. -/
theorem Turn.exists_quiet (hturn : Turn host m m') :
    ∃ f rest ip q, m.frames = f :: rest ∧ Quiet host (m.atOffset ip) q ∧
      m'.raised? = q.raised? ∧ Kept host q m' := by
  cases hturn with
  | goes hframes _ hquiet => exact ⟨_, _, _, _, hframes, hquiet, rfl, .refl _⟩
  | makes hframes _ _ _ hquiet =>
    exact ⟨_, _, _, _, hframes, hquiet, rfl, rfl, rfl, fun _ => rfl⟩
  | calls hframes _ _ hcalled =>
    obtain ⟨q, r, proto, hquiet, rfl⟩ := hcalled.exists_quiet
    exact ⟨_, _, _, _, hframes, hquiet, rfl, rfl, rfl, fun _ => rfl⟩
  | enters hframes _ _ _ _ _ => exact ⟨_, _, 0, _, hframes, .refl, rfl, rfl, rfl, fun _ => rfl⟩
  | pops hframes _ _ => exact ⟨_, _, 0, _, hframes, .refl, rfl, rfl, rfl, fun _ => rfl⟩
  | resumes hframes _ _ _ _ => exact ⟨_, _, 0, _, hframes, .refl, rfl, rfl, rfl, fun _ => rfl⟩
  | returns hframes _ _ _ _ _ hquiet =>
    exact ⟨_, _, _, _, hframes, hquiet, rfl, rfl, rfl, fun _ => rfl⟩
  | leaves hframes _ _ _ _ _ hquiet =>
    exact ⟨_, _, _, _, hframes, hquiet, rfl, rfl, rfl, fun _ => rfl⟩
  | throws hframes _ _ _ hquiet _ =>
    exact ⟨_, _, _, _, hframes, hquiet, rfl, rfl, rfl, fun _ => rfl⟩

theorem Quiet.kept_atOffset (hdiscreet : host.Discreet) (hframes : m.frames = f :: rest)
    {ip : Nat} (hquiet : Quiet host (m.atOffset ip) m') : Kept host m m' := by
  have hmoved : Kept host m (m.atOffset ip) := ⟨rfl, rfl, fun _ => rfl⟩
  exact hmoved.trans (hquiet.kept hdiscreet (settled_of_frames (frames_atOffset hframes ip)))

theorem Turn.kept (hdiscreet : host.Discreet) (hturn : Turn host m m') : Kept host m m' := by
  obtain ⟨f, rest, ip, q, hframes, hquiet, -, hkept⟩ := hturn.exists_quiet
  exact (hquiet.kept_atOffset hdiscreet hframes).trans hkept

theorem resumeAt_ne_nil {frames : List Frame} {depth : Nat} (hpos : 1 ≤ depth)
    (hle : depth ≤ frames.length) (ip : Nat) : resumeAt frames depth ip ≠ [] := by
  intro hnil
  have hlength := length_resumeAt hle ip
  rw [hnil, List.length_nil] at hlength
  omega

theorem Turn.frames_ne_nil (hdiscreet : host.Discreet) (hturn : Turn host m m')
    (hm : m.Coherent) : m'.frames ≠ [] := by
  cases hturn with
  | goes hframes _ hquiet =>
    rw [hquiet.frames_eq hdiscreet hframes]
    nofun
  | makes hframes _ _ _ hquiet =>
    intro hnil
    exact absurd ((hquiet.frames_eq hdiscreet hframes).symm.trans hnil) nofun
  | calls hframes _ _ hcalled =>
    obtain ⟨q, q', r, c, -, -, -, -, rfl⟩ := hcalled
    nofun
  | enters hframes _ _ _ _ _ =>
    show (m.atOffset _).frames ≠ []
    rw [frames_atOffset hframes]
    nofun
  | pops hframes _ _ => exact resumeAt_ne_nil (one_le_length hframes) (le_refl _) _
  | resumes hframes _ _ _ _ =>
    show (m.atOffset _).frames ≠ []
    rw [frames_atOffset hframes]
    nofun
  | returns hframes _ _ _ _ _ _ => exact resumeAt_ne_nil (one_le_length hframes) (le_refl _) _
  | leaves _ hrest _ _ _ _ _ => exact hrest
  | @throws _ _ _ _ _ _ region _ _ _ _ hframes _ hregions _ _ _ =>
    have hbounds := hm.regionDepth region (by simp [hregions])
    exact resumeAt_ne_nil hbounds.1 hbounds.2 _

/-- A turn leaves the outermost call under way. -/
theorem Turn.getLast_calls (hdiscreet : host.Discreet) (hturn : Turn host m m')
    (hm : m.Coherent) : m'.calls.getLast? = m.calls.getLast? := by
  have hne : m'.calls ≠ [] := by
    intro hnil
    exact hturn.frames_ne_nil hdiscreet hm (List.map_eq_nil_iff.1 hnil)
  have hdrop {k : Nat} (hcalls : m'.calls = m.calls.drop k) :
      m'.calls.getLast? = m.calls.getLast? := by
    rw [hcalls] at hne ⊢
    rw [List.getLast?_drop, if_neg]
    intro hle
    exact hne (List.drop_eq_nil_of_le hle)
  cases hturn.shift hdiscreet hm with
  | goes hcalls _ _ _ =>
    rcases hcalls with hsame | ⟨g, hcall⟩
    · rw [hsame]
    · obtain ⟨f, rest, -, -, hframes, -⟩ := hturn.exists_quiet
      have hcons : m.calls ≠ [] := by
        intro hnil
        have hnone := List.map_eq_nil_iff.1 hnil
        rw [hframes] at hnone
        cases hnone
      rw [hcall, List.getLast?_cons_of_ne_nil hcons]
  | enters _ _ _ _ _ hcalls _ _ => rw [hcalls]
  | begins hcalls _ _ _ _ _ _ _ => exact hdrop hcalls
  | drops hcalls _ _ _ => exact hdrop hcalls

theorem Running.turn (hdiscreet : host.Discreet) (hcandid : host.Candid)
    (h : Running host first m) (hturn : Turn host m.collectIfDue m') : Running host first m' := by
  have hcoherent : m.collectIfDue.Coherent := (undisturbed_collectIfDue m).coherent h.coherent
  obtain ⟨f, rest, ip, q, -, hquiet, hraised, -⟩ := hturn.exists_quiet
  refine ⟨hturn.coherent hdiscreet hcoherent, ?_, ?_, ?_⟩
  · rw [hturn.getLast_calls hdiscreet hcoherent, (undisturbed_collectIfDue m).calls_eq]
    exact h.bottom
  · have hnone : (m.collectIfDue.atOffset ip).raised? = none :=
      (raised_collectIfDue m).trans h.raised
    rw [hraised]
    exact hquiet.raised_none hcandid hnone
  · exact (h.kept.trans (kept_collectIfDue m)).trans (hturn.kept hdiscreet)

theorem Running.exists_frame (h : Running host first m) : ∃ f rest, m.frames = f :: rest := by
  have hbottom := h.bottom
  unfold calls at hbottom
  cases hframes : m.frames with
  | nil =>
    rw [hframes] at hbottom
    cases hbottom
  | cons f rest => exact ⟨f, rest, rfl⟩

/-- A step that ends the run. -/
theorem Running.ends (hdiscreet : host.Discreet) (hcandid : host.Candid)
    (h : Running host first m) {e : Ending} (hstep : step host m = .ok (some e) m') :
    Rested host first m' := by
  obtain ⟨f, rest, hframes⟩ := exists_frame_of_step hstep
  have hcoherent : m.collectIfDue.Coherent := (undisturbed_collectIfDue m).coherent h.coherent
  have hnow := h.kept.trans (kept_collectIfDue m)
  have houtcome := step_outcome hdiscreet hframes h.coherent
  rw [hstep] at houtcome
  cases houtcome with
  | halted ip status => exact rested_reset (hnow.trans ⟨rfl, rfl, fun _ => rfl⟩)
  | @returned v w cs gone older ip q hlast hreturning hregions hgone holder hquiet =>
    have hnone : (m.collectIfDue.atOffset ip).raised? = none :=
      (raised_collectIfDue m).trans h.raised
    have hraised : q.raised? = none := hquiet.raised_none hcandid hnone
    have hbase : f.base = 0 := by
      have hbottom := h.bottom
      unfold calls at hbottom
      rw [← frames_collectIfDue, hlast] at hbottom
      exact Option.some.inj hbottom
    have hkept := hquiet.kept_atOffset hdiscreet hlast
    rw [hbase]
    refine ⟨⟨rfl, ?_, ?_, ?_, openUpvalues_closeUpvalues_zero q, hraised⟩, ?_⟩
    · show (q.closeUpvalues 0).stack.shrink 0 = #[]
      simp
    · exact hcoherent.regions_of_last hlast hregions holder
    · exact (hcoherent.fits rfl hreturning.suffix).dropWhile_eq_nil
    · exact hnow.trans (hkept.trans ⟨rfl, rfl, fun _ => rfl⟩)

theorem Running.fails (hdiscreet : host.Discreet) (h : Running host first m) {s : Signal}
    (hstep : step host m = .error s m') : Kept host first m' := by
  obtain ⟨f, rest, hframes⟩ := h.exists_frame
  have houtcome := step_outcome hdiscreet hframes h.coherent
  rw [hstep] at houtcome
  cases houtcome with
  | failed hquiet hkept _ _ =>
    have hdue : m.collectIfDue.frames = f :: rest := (frames_collectIfDue m).trans hframes
    have hnow := h.kept.trans (kept_collectIfDue m)
    exact hnow.trans ((hquiet.kept_atOffset hdiscreet hdue).trans hkept)

/-- A run that comes to an end leaves the machine idle. -/
theorem Running.rested (hdiscreet : host.Discreet) (hcandid : host.Candid) (fuel : Nat)
    (h : Running host first m) (hfinished : (runSteps host fuel m).1.isFinished = true) :
    Rested host first (runSteps host fuel m).2 := by
  induction fuel generalizing m with
  | zero => cases hfinished
  | succ fuel ih =>
    unfold runSteps at hfinished ⊢
    cases hstep : step host m with
    | ok e m' =>
      simp only [hstep] at hfinished ⊢
      cases e with
      | none => exact ih (h.turn hdiscreet hcandid (turn_of_step hdiscreet h.coherent hstep)) hfinished
      | some e => exact h.ends hdiscreet hcandid hstep
    | error s m' => exact rested_reset (h.fails hdiscreet hstep)

/-! Scripts and calls of the host. -/

theorem Idle.running_entered (hm : m.Idle) (proto : Prototype) :
    Running host m (m.entered proto) where
  coherent := by
    unfold Coherent
    have hregions : (m.entered proto).regions = [] := hm.regions
    have hcompletions : (m.entered proto).completions = [] := hm.completions
    rw [hregions, hcompletions]
    exact .empty _ _
  bottom := by
    have hframes : (m.entered proto).frames = [_] := congrArg (List.cons _) hm.frames
    unfold calls
    rw [hframes]
    exact congrArg (fun stack : Array Value => some stack.size) hm.stack
  raised := hm.raised
  kept := ⟨rfl, rfl, fun _ => rfl⟩

theorem Idle.running_called (hdiscreet : host.Discreet) (hcandid : host.Candid) (hm : m.Idle)
    {callee : Value} {args : Array Value} {base : Nat}
    (hbase : base + args.size + 1 = (m.stack.push callee ++ args).size)
    (hcalled : Called host base { m with stack := m.stack.push callee ++ args } m') :
    Running host m m' := by
  obtain ⟨q, r, proto, hquiet, rfl⟩ := hcalled.exists_quiet
  let placed : Machine := { m with stack := m.stack.push callee ++ args }
  have hready : placed.Settled := hm.settled
  have hleft : placed.Undisturbed q := hquiet.undisturbed hdiscreet hready
  have hkept : Kept host placed q := hquiet.kept hdiscreet hready
  have hready' : placed.raised? = none := hm.raised
  have hraised : q.raised? = none := hquiet.raised_none hcandid hready'
  refine ⟨?_, ?_, hraised, hkept.settings, hkept.builtins, hkept.pinned⟩
  · have hregions : q.regions = [] := hleft.regions.trans hm.regions
    have hcompletions : q.completions = [] := hleft.completions.trans hm.completions
    show Fits _ _ q.regions q.completions
    rw [hregions, hcompletions]
    exact .empty _ _
  · have hframes : q.frames = [] := hleft.frames.trans hm.frames
    have hzero : base = 0 := by
      rw [hm.stack, Array.size_append, Array.size_push, Array.size_empty] at hbase
      omega
    unfold calls
    rw [hframes, hzero]
    rfl

/-- The result of a call that pushed no frame is taken off the stack. -/
theorem rested_takeResult (hkept : Kept host first m) (hidle : ({ m with stack := #[] } : Machine).Idle) :
    match takeResult m with
    | .ok _ m' => Rested host first m'
    | .error _ m' => Rested host first m'.reset := by
  unfold takeResult
  rcases pop_cases m with ⟨v, -, hok⟩ | herror
  · rw [bind_of_ok hok]
    exact ⟨hidle, hkept.settings, hkept.builtins, hkept.pinned⟩
  · rw [bind_of_error herror]
    exact rested_reset hkept

theorem Idle.rested_run (hdiscreet : host.Discreet) (hcandid : host.Candid) (hm : m.Idle)
    {fuel : Nat} {proto : Prototype} (hfinished : (run host fuel proto m).1.isFinished = true) :
    Rested host m (run host fuel proto m).2 := by
  unfold run at hfinished ⊢
  have hnone : ¬ (!m.frames.isEmpty) = true := by
    rw [hm.frames]
    nofun
  rw [if_neg hnone] at hfinished ⊢
  cases hcheck : Validation.check m.heap proto.blob with
  | error f => exact ⟨hm, .refl m⟩
  | ok a =>
    rw [hcheck] at hfinished
    exact (hm.running_entered proto).rested hdiscreet hcandid fuel hfinished

theorem Idle.rested_call (hdiscreet : host.Discreet) (hcandid : host.Candid) (hm : m.Idle)
    {fuel : Nat} {callee : Value} {args : Array Value}
    (hfinished : (call host fuel callee args m).1.isFinished = true) :
    Rested host m (call host fuel callee args m).2 := by
  unfold call at hfinished ⊢
  have hnone : ¬ (!m.frames.isEmpty) = true := by
    rw [hm.frames]
    nofun
  rw [if_neg hnone] at hfinished ⊢
  let placed : Machine := { m with stack := m.stack.push callee ++ args }
  have hready : placed.Settled := hm.settled
  have hplaced : Kept host m placed := ⟨rfl, rfl, fun _ => rfl⟩
  have hopens := opens_callValue hdiscreet hready hm.frames callee args.size
  revert hopens hfinished
  dsimp only
  cases throwing () (callValue host callee args.size) placed with
  | error s m' =>
    intro _ hopens
    exact rested_reset (hplaced.trans hopens.2)
  | ok a m' =>
    intro hfinished hopens
    rcases hopens with hquiet | ⟨base, hbase, hcalled⟩
    · have hleft := hquiet.undisturbed hdiscreet hready
      have hframes : m'.frames = [] := hleft.frames.trans hm.frames
      have hready' : placed.raised? = none := hm.raised
      have hraised : m'.raised? = none := hquiet.raised_none hcandid hready'
      have hidle : ({ m' with stack := #[] } : Machine).Idle :=
        ⟨hframes, rfl, hleft.regions.trans hm.regions, hleft.completions.trans hm.completions,
          hleft.openUpvalues hm.frames hm.openUpvalues, hraised⟩
      have hresult := rested_takeResult (hplaced.trans (hquiet.kept hdiscreet hready)) hidle
      dsimp only
      rw [hframes]
      revert hresult
      cases takeResult m' with
      | ok v m'' => exact id
      | error s m'' => exact id
    · have hrunning := hm.running_called hdiscreet hcandid hbase hcalled
      obtain ⟨f, rest, hframes⟩ := hrunning.exists_frame
      have hsome : ¬ m'.frames.isEmpty = true := by
        rw [hframes]
        nofun
      dsimp only at hfinished ⊢
      rw [if_neg hsome] at hfinished ⊢
      exact hrunning.rested hdiscreet hcandid fuel hfinished

/-- What a rested machine has in common with the idle one it started from. -/
theorem Rested.eq_with (hfirst : first.Idle) (h : Rested host first m) :
    m = { first with
      heap := m.heap, globals := m.globals, pinned := m.pinned, output := m.output,
      errors := m.errors } := by
  obtain ⟨hidle, hkept⟩ := h
  cases m
  cases first
  rw [Machine.mk.injEq]
  exact ⟨hkept.settings, rfl, hidle.stack.trans hfirst.stack.symm,
    hidle.frames.trans hfirst.frames.symm, rfl, hidle.openUpvalues.trans hfirst.openUpvalues.symm,
    hidle.regions.trans hfirst.regions.symm, hidle.completions.trans hfirst.completions.symm,
    hidle.raised.trans hfirst.raised.symm, hkept.builtins, rfl, rfl, rfl⟩

/-- The machine is idle again: it is the machine from before with another heap and other globals,
and natives may have pinned values and written to the sinks. -/
structure IdleAgain (host : Host) (first m : Machine) : Prop where
  idle : m.Idle
  eq_with : m = { first with
    heap := m.heap, globals := m.globals, pinned := m.pinned, output := m.output,
    errors := m.errors }
  pinned : host.KeepsPins → m.pinned = first.pinned

theorem Rested.idleAgain (hfirst : first.Idle) (h : Rested host first m) :
    IdleAgain host first m := ⟨h.idle, h.eq_with hfirst, h.kept.pinned⟩

/-- An idle machine is idle again after every script and every call that the host makes of it,
whatever the outcome. -/
theorem idle_after_run_or_call (hdiscreet : host.Discreet) (hcandid : host.Candid) (hm : m.Idle) :
    (∀ fuel proto, (run host fuel proto m).1.isFinished = true →
      IdleAgain host m (run host fuel proto m).2) ∧
    ∀ fuel callee args, (call host fuel callee args m).1.isFinished = true →
      IdleAgain host m (call host fuel callee args m).2 := by
  constructor
  · intro fuel proto hfinished
    exact (hm.rested_run hdiscreet hcandid hfinished).idleAgain hm
  · intro fuel callee args hfinished
    exact (hm.rested_call hdiscreet hcandid hfinished).idleAgain hm

/-- A script that fails after its finally block, and a call of a value that is not callable. -/
theorem idle_after_run_or_call_cleanupScript :
    IdleAgain .idle bare (run .idle 8 (.script cleanupScript) bare).2 ∧
      IdleAgain .idle bare (call .idle 8 .nil #[.nil] bare).2 :=
  have hidle : bare.Idle := ⟨rfl, rfl, rfl, rfl, rfl, rfl⟩
  have hafter := idle_after_run_or_call Host.discreet_idle Host.candid_idle hidle
  ⟨hafter.1 8 (.script cleanupScript) (by cbv), hafter.2 8 .nil #[.nil] (by decide +kernel)⟩

end Machine

end ScriptMachine
