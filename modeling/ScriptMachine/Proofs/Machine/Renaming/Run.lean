import ScriptMachine.Proofs.Machine.Renaming.Collection
import ScriptMachine.Proofs.Machine.Renaming.Step
import ScriptMachine.Proofs.Machine.Sessions

/-!
Runs of machines that are the same but for a renaming. Before each instruction either machine may
collect while the other does not. No renaming that was there before leads to what is left of it
after a collection, so all that is said of a run is that there is one at its end.
-/

namespace ScriptMachine

open Machine

inductive Verdict.Alike (ρ : Renaming) : Verdict → Verdict → Prop where
  | ended {e e' : Ending} (h : ρ.Alike e e') : Alike ρ (.ended e) (.ended e')
  | failed (f : Fault) : Alike ρ (.failed f) (.failed f)
  | unfinished : Alike ρ .unfinished .unfinished
  | crashed : Alike ρ .crashed .crashed

instance : Renamed Verdict where
  Alike := Verdict.Alike
  mono hle h := by
    cases h with
    | ended h => exact .ended (h.mono hle)
    | failed f => exact .failed f
    | unfinished => exact .unfinished
    | crashed => exact .crashed

theorem Machine.Signal.Alike.verdict {ρ : Renaming} {s t : Signal} (h : Signal.Alike ρ s t) :
    ρ.Alike (Verdict.ofSignal s) (Verdict.ofSignal t) := by
  cases h with
  | fault f => exact .failed f
  | raised _ => exact .crashed
  | endless => exact .unfinished
  | crash => exact .crashed

namespace Renaming

variable {ρ : Renaming} {m n : Machine} {host : Host}

/-- Any renaming takes the place of any other. -/
def Anew (_ _ : Renaming) : Prop := True

instance : Course Anew := ⟨fun _ => trivial, fun _ _ => trivial⟩

/-- Two runs or calls came to the same, but for a renaming. Nothing is said of the machines of
unfinished ones. -/
inductive Concur : Verdict × Machine → Verdict × Machine → Prop where
  | unfinished {m n : Machine} : Concur (.unfinished, m) (.unfinished, n)
  | same {ρ : Renaming} {v w : Verdict} {m n : Machine} (hvw : ρ.Alike v w)
      (hm : ρ.Mirrors m n) : Concur (v, m) (w, n)

/-! Steps. -/

theorem exists_suffices_collectIfDue (hm : m.heap.Composed) :
    ∃ K h, Suffices K m h ∧ m.collectIfDue = { m with heap := h } := by
  unfold collectIfDue
  split
  · exact ⟨_, _, suffices_collect hm, rfl⟩
  · exact ⟨_, _, suffices_self hm, rfl⟩

theorem Mirrors.collectIfDue (hm : ρ.Mirrors m n) :
    ∃ σ : Renaming, σ.Mirrors m.collectIfDue n.collectIfDue := by
  obtain ⟨K, h, hleft, hm'⟩ := exists_suffices_collectIfDue hm.heap.left
  obtain ⟨L, k, hright, hn'⟩ := exists_suffices_collectIfDue hm.heap.right
  rw [hm', hn']
  exact hm.thin hleft hright

theorem does_step (hhost : host.Uniform Anew) : ρ.Does Anew (step host) (step host) := by
  intro m n hm
  obtain ⟨σ, hσ⟩ := hm.collectIfDue
  have hdone : σ.Ends Anew (instruction host m.collectIfDue) (instruction host n.collectIfDue) :=
    does_instruction hhost _ _ hσ
  exact hdone.after trivial

/-! Runs. -/

theorem concur_runSteps (hhost : host.Uniform Anew) (fuel : Nat) (hm : ρ.Mirrors m n) :
    Concur (runSteps host fuel m) (runSteps host fuel n) := by
  induction fuel generalizing ρ m n with
  | zero => exact .unfinished
  | succ fuel ih =>
    have hstep := does_step hhost m n hm
    unfold runSteps
    generalize step host m = e at hstep
    generalize step host n = e' at hstep
    cases hstep with
    | endless => exact .unfinished
    | error _ hm' hst => exact .same (Signal.Alike.verdict hst) hm'.reset
    | ok _ hm' hab =>
      cases hab with
      | none => exact ih hm'
      | some hended => exact .same (.ended hended) hm'

/-- A machine about to run a script has a new function, and a closure of it in the frame. -/
theorem Mirrors.entered (hm : ρ.Mirrors m n) {p q : Prototype} (hpq : ρ.Alike p q) :
    ∃ σ : Renaming, σ.Mirrors (m.entered p) (n.entered q) := by
  obtain ⟨σ, hρσ, hσ, hfunction⟩ := hm.heap.alloc (.function hpq) nofun nofun
  have hstored := Heap.get?_alloc_self hm.heap.left.wellFormed (.function p)
  have hstored' := Heap.get?_alloc_self hm.heap.right.wellFormed (.function q)
  unfold Machine.entered
  generalize m.heap.alloc (.function p) = made at hσ hfunction hstored
  generalize n.heap.alloc (.function q) = made' at hσ hfunction hstored'
  let c : Closure := { function := made.1, proto := p, upvalues := [] }
  let d : Closure := { function := made'.1, proto := q, upvalues := [] }
  have hcd : σ.Alike (Object.closure c) (.closure d) :=
    .closure hfunction (hpq.mono hρσ) .nil
  obtain ⟨τ, hστ, hτ, hclosure⟩ := hσ.alloc hcd (fun _ hc => by cases hc; exact hstored)
    (fun _ hd => by cases hd; exact hstored')
  have hstate := hm.state.mono (hρσ.trans hστ)
  have hleft := hτ.runs_left (Heap.get?_alloc_self hσ.left.wellFormed (.closure c))
  have hright := hτ.runs_right (Heap.get?_alloc_self hσ.right.wellFormed (.closure d))
  refine ⟨τ, hτ, { hstate with
    stack := alike_push hstate.stack (.ref hclosure)
    frames := .cons ?_ hstate.frames }⟩
  exact ⟨hclosure, hpq.mono (hρσ.trans hστ), rfl, hm.size, hleft, hright⟩

end Renaming

end ScriptMachine
