import ScriptMachine.Proofs.Machine.Dispatch

/-!
What natives leave alone. A native sees the whole machine, but the calls under way, the regions and
the completions are not its business, and when no call is under way it leaves no variable open.
Then a quiet change leaves all of this alone as well.
-/

namespace ScriptMachine.Machine

/-- While no call is under way, no region is entered, no finally block runs and no variable is
open. -/
def Settled (m : Machine) : Prop :=
  m.frames = [] → m.regions = [] ∧ m.completions = [] ∧ m.openUpvalues = []

structure Undisturbed (m m' : Machine) : Prop where
  settings : m'.settings = m.settings
  builtins : m'.builtins = m.builtins
  frames : m'.frames = m.frames
  regions : m'.regions = m.regions
  completions : m'.completions = m.completions
  openUpvalues : m.frames = [] → m.openUpvalues = [] → m'.openUpvalues = []

end Machine

namespace Host

/-- Natives leave the calls, the regions and the completions as they find them. -/
def Discreet (host : Host) : Prop :=
  ∀ name receiver args (m : Machine), m.Settled → m.Undisturbed (host name receiver args m).2

/-- Natives give nothing exactly when they have raised an exception. -/
def Candid (host : Host) : Prop :=
  ∀ name receiver args (m : Machine), m.raised? = none →
    ((host name receiver args m).1 = none ↔ (host name receiver args m).2.raised? ≠ none)

/-- Natives neither pin nor unpin. -/
def KeepsPins (host : Host) : Prop :=
  ∀ name receiver args (m : Machine), (host name receiver args m).2.pinned = m.pinned

variable {host : Host} {name : String} {receiver : Value} {args : Array Value}
  {result : Option Value} {m m' : Machine}

theorem Discreet.undisturbed (h : host.Discreet) (hsettled : m.Settled)
    (hnative : host name receiver args m = (result, m')) : m.Undisturbed m' := by
  have hleft := h name receiver args m hsettled
  rwa [hnative] at hleft

theorem Candid.raised_none (h : host.Candid) (hnone : m.raised? = none) {v : Value}
    (hnative : host name receiver args m = (some v, m')) : m'.raised? = none := by
  have hiff := h name receiver args m hnone
  rw [hnative] at hiff
  by_contra hsome
  exact absurd (hiff.2 hsome) nofun

theorem KeepsPins.pinned (h : host.KeepsPins)
    (hnative : host name receiver args m = (result, m')) : m'.pinned = m.pinned := by
  have hpins := h name receiver args m
  rwa [hnative] at hpins

end Host

namespace Machine

variable {host : Host} {m m' : Machine}

theorem settled_of_frames {f : Frame} {rest : List Frame} (hframes : m.frames = f :: rest) :
    m.Settled := by
  intro hnone
  rw [hframes] at hnone
  cases hnone

namespace Undisturbed

theorem refl (m : Machine) : m.Undisturbed m := ⟨rfl, rfl, rfl, rfl, rfl, fun _ h => h⟩

theorem trans {m'' : Machine} (h : m.Undisturbed m') (h' : m'.Undisturbed m'') :
    m.Undisturbed m'' where
  settings := h'.settings.trans h.settings
  builtins := h'.builtins.trans h.builtins
  frames := h'.frames.trans h.frames
  regions := h'.regions.trans h.regions
  completions := h'.completions.trans h.completions
  openUpvalues hframes hopen :=
    h'.openUpvalues (h.frames.trans hframes) (h.openUpvalues hframes hopen)

theorem settled (h : m.Undisturbed m') (hsettled : m.Settled) : m'.Settled := by
  intro hframes
  have hnone : m.frames = [] := h.frames.symm.trans hframes
  obtain ⟨hregions, hcompletions, hopen⟩ := hsettled hnone
  exact ⟨h.regions.trans hregions, h.completions.trans hcompletions, h.openUpvalues hnone hopen⟩

end Undisturbed

theorem undisturbed_closeUpvalues (m : Machine) (start : Nat) :
    m.Undisturbed (m.closeUpvalues start) := by
  refine ⟨rfl, rfl, rfl, rfl, rfl, ?_⟩
  intro _ hopen
  show (closeCells m.stack start m.openUpvalues m.heap).1 = []
  rw [hopen]
  rfl

theorem undisturbed_captureSlot (hframes : m.frames ≠ []) (slot : Nat) :
    m.Undisturbed (m.captureSlot slot).2 := by
  unfold captureSlot
  dsimp only
  split
  · exact .refl m
  · exact ⟨rfl, rfl, rfl, rfl, rfl, fun hnone => absurd hnone hframes⟩

theorem Quiet.undisturbed (hdiscreet : host.Discreet) (hsettled : m.Settled)
    (hquiet : Quiet host m m') : m.Undisturbed m' := by
  induction hquiet with
  | refl => exact .refl m
  | stack _ _ ih => exact ih.trans ⟨rfl, rfl, rfl, rfl, rfl, fun _ h => h⟩
  | globals _ _ ih => exact ih.trans ⟨rfl, rfl, rfl, rfl, rfl, fun _ h => h⟩
  | output _ _ ih => exact ih.trans ⟨rfl, rfl, rfl, rfl, rfl, fun _ h => h⟩
  | alloc _ _ _ ih => exact ih.trans ⟨rfl, rfl, rfl, rfl, rfl, fun _ h => h⟩
  | intern _ _ ih => exact ih.trans ⟨rfl, rfl, rfl, rfl, rfl, fun _ h => h⟩
  | update _ _ _ _ ih => exact ih.trans ⟨rfl, rfl, rfl, rfl, rfl, fun _ h => h⟩
  | capture _ slot hframes ih => exact ih.trans (undisturbed_captureSlot hframes slot)
  | close _ start ih => exact ih.trans (undisturbed_closeUpvalues _ start)
  | gave _ hnative ih => exact ih.trans (hdiscreet.undisturbed (ih.settled hsettled) hnative)
  | raised _ hnative ih =>
    have hleft := ih.trans (hdiscreet.undisturbed (ih.settled hsettled) hnative)
    exact hleft.trans ⟨rfl, rfl, rfl, rfl, rfl, fun _ h => h⟩

/-- What a quiet change from a call that was moved leaves of its calls. -/
theorem Quiet.frames_eq (hdiscreet : host.Discreet) {f : Frame} {rest : List Frame}
    (hframes : m.frames = f :: rest) {ip : Nat} (hquiet : Quiet host (m.atOffset ip) m') :
    m'.frames = { f with ip } :: rest := by
  have hmoved := frames_atOffset hframes ip
  rw [(hquiet.undisturbed hdiscreet (settled_of_frames hmoved)).frames, hmoved]

/-- An exception that a native raised is taken at once. -/
theorem Quiet.raised_none (hcandid : host.Candid) (hnone : m.raised? = none)
    (hquiet : Quiet host m m') : m'.raised? = none := by
  induction hquiet with
  | refl => exact hnone
  | capture _ slot _ ih =>
    unfold captureSlot
    dsimp only
    split <;> exact ih
  | gave _ hnative ih => exact hcandid.raised_none ih hnative
  | raised => rfl
  | _ => assumption

/-! What no action of the machine changes. -/

/-- The settings and what the machine itself refers to stay, and natives alone pin. -/
structure Kept (host : Host) (m m' : Machine) : Prop where
  settings : m'.settings = m.settings
  builtins : m'.builtins = m.builtins
  pinned : host.KeepsPins → m'.pinned = m.pinned

namespace Kept

theorem refl (m : Machine) : Kept host m m := ⟨rfl, rfl, fun _ => rfl⟩

theorem trans {m'' : Machine} (h : Kept host m m') (h' : Kept host m' m'') : Kept host m m'' where
  settings := h'.settings.trans h.settings
  builtins := h'.builtins.trans h.builtins
  pinned hkeeps := (h'.pinned hkeeps).trans (h.pinned hkeeps)

end Kept

theorem Quiet.pinned (hkeeps : host.KeepsPins) (hquiet : Quiet host m m') :
    m'.pinned = m.pinned := by
  induction hquiet with
  | refl => rfl
  | capture _ slot _ ih =>
    unfold captureSlot
    dsimp only
    split <;> exact ih
  | gave _ hnative ih => exact (hkeeps.pinned hnative).trans ih
  | raised _ hnative ih => exact (hkeeps.pinned hnative).trans ih
  | _ => assumption

theorem Quiet.kept (hdiscreet : host.Discreet) (hsettled : m.Settled)
    (hquiet : Quiet host m m') : Kept host m m' :=
  have hleft := hquiet.undisturbed hdiscreet hsettled
  ⟨hleft.settings, hleft.builtins, fun hkeeps => hquiet.pinned hkeeps⟩

end Machine

/-- A host whose natives do nothing. -/
def Host.idle : Host := fun _ _ _ m => (some .nil, m)

theorem Host.discreet_idle : Host.idle.Discreet := fun _ _ _ m _ => .refl m

theorem Host.candid_idle : Host.idle.Candid := by
  intro name receiver args m hnone
  exact ⟨nofun, fun hsome => absurd hnone hsome⟩

end ScriptMachine
