import ScriptMachine.Proofs.Machine.Renaming.Run
import ScriptMachine.Proofs.Machine.StockNatives

/-!
The stock natives cannot tell machines apart that are the same but for a renaming, as long as they
do not call the machine that runs them and a collection does not report what it released.
-/

namespace ScriptMachine

/-- The stock natives without calls of the machine and without reports of collections. -/
def Host.reticent : Host := fun name receiver args =>
  if name = "collect" then do
    modify fun m => m.collect.2
    give .nil
  else stock .closed name receiver args

open Machine

namespace Renaming

variable {ρ : Renaming} {m n : Machine} {v w : Value} {args args' : Array Value}

theorem Mirrors.collect (hm : ρ.Mirrors m n) :
    ∃ σ : Renaming, σ.Mirrors m.collect.2 n.collect.2 :=
  hm.thin (suffices_collect hm.heap.left) (suffices_collect hm.heap.right)

theorem Mirrors.give (hm : ρ.Mirrors m n) (hvw : ρ.Alike v w) :
    ρ.Gives Anew (Host.give v m) (Host.give w n) := ⟨ρ, trivial, hm, .some hvw⟩

theorem Mirrors.raiseValue (hm : ρ.Mirrors m n) (hvw : ρ.Alike v w) :
    ρ.Gives Anew (Machine.raiseValue v m) (Machine.raiseValue w n) :=
  ⟨ρ, trivial, ⟨hm.heap, { hm.state with raised := .some hvw }⟩, .none⟩

theorem Mirrors.raise (hm : ρ.Mirrors m n) (kind : ExceptionKind) (message : String) :
    ρ.Gives Anew (Machine.raise kind message m) (Machine.raise kind message n) := by
  obtain ⟨σ, -, hσ, he⟩ := hm.makeException kind message
  obtain ⟨τ, -, hτ⟩ := hσ.raiseValue he
  exact ⟨τ, trivial, hτ⟩

theorem alike_argument (hargs : ρ.Alike args args') (i : Nat) :
    ρ.Alike (Host.argument args i) (Host.argument args' i) := alike_getD hargs i .nil

theorem Mirrors.argumentText (hm : ρ.Mirrors m n) (hargs : ρ.Alike args args') (i : Nat) :
    Host.argumentText m args i = Host.argumentText n args' i := by
  have harg := alike_getElem? hargs i
  unfold Host.argumentText
  generalize args[i]? = v? at harg
  generalize args'[i]? = w? at harg
  cases harg with
  | none => rfl
  | some hvw => exact hm.render hvw

/-- What a native makes it also gives. -/
theorem gives_made {p q : Value × Machine} (h : ρ.Makes p q) :
    ρ.Gives Anew (some p.1, p.2) (some q.1, q.2) := by
  obtain ⟨σ, -, hσ, hab⟩ := h
  exact ⟨σ, trivial, hσ, .some hab⟩

/-- A collection at the end of a native. -/
theorem gives_collecting {x y : StateM Machine (Option Value)} (h : ρ.Gives Anew (x m) (y n)) :
    ρ.Gives Anew
      ((do let _ ← x; modify fun m => m.collect.2; return none : StateM Machine (Option Value)) m)
      ((do let _ ← y; modify fun n => n.collect.2; return none : StateM Machine (Option Value)) n)
    := by
  obtain ⟨σ, -, hσ, -⟩ := h
  obtain ⟨τ, hτ⟩ := hσ.collect
  exact ⟨τ, trivial, hτ, .none⟩

theorem Mirrors.raiseNamed (hm : ρ.Mirrors m n) (hargs : ρ.Alike args args') :
    ρ.Gives Anew (Host.raiseNamed args m) (Host.raiseNamed args' n) := by
  unfold Host.raiseNamed
  rw [Host.get_bind_native, Host.get_bind_native, hm.argumentText hargs, hm.argumentText hargs]
  exact hm.raise _ _

theorem Mirrors.answer (hm : ρ.Mirrors m n) (verdict : Verdict) :
    ρ.Gives Anew (Host.answer verdict m) (Host.answer verdict n) := by
  cases verdict with
  | failed f => exact hm.raise _ _
  | _ => exact hm.give .nil

theorem Mirrors.isEmpty_frames (hm : ρ.Mirrors m n) : m.frames.isEmpty = n.frames.isEmpty := by
  have hframes := hm.state.frames
  generalize m.frames = fs at hframes
  generalize n.frames = gs at hframes
  cases hframes <;> rfl

/-- The answer to a call of the machine, which is refused while a script runs. -/
theorem Mirrors.refuse (hm : ρ.Mirrors m n) (f : Fault) :
    ρ.Gives Anew (Host.answer (if m.frames.isEmpty then .unfinished else .failed f) m)
      (Host.answer (if n.frames.isEmpty then .unfinished else .failed f) n) := by
  rw [hm.isEmpty_frames]
  exact hm.answer _

end Renaming

namespace Host

theorem stack_raise (kind : ExceptionKind) (message : String) (m : Machine) :
    (Machine.raise kind message m).2.stack = m.stack := stack_setField _ _ _ _

theorem stack_answer (verdict : Verdict) (m : Machine) : (answer verdict m).2.stack = m.stack := by
  cases verdict with
  | failed f => exact stack_raise _ _ m
  | _ => rfl

theorem uniform_reticent : reticent.Uniform Renaming.Anew where
  native := by
    intro ρ name receiver receiver' args args' m n hm hreceiver hargs _ _ _ _
    have hargument := Renaming.alike_argument hargs
    have htext := hm.argumentText hargs
    unfold reticent
    split
    · obtain ⟨σ, hσ⟩ := hm.collect
      exact ⟨σ, trivial, hσ, .some .nil⟩
    · unfold stock
      split
      case h_1 => exact hm.give (hargument 0)
      case h_2 => exact hm.give hreceiver
      case h_3 => exact Renaming.gives_made (hm.alloc (.array hargs) nofun nofun)
      case h_4 =>
        refine Renaming.gives_made (p := m.intern _) (q := n.intern _) ?_
        rw [hm.render hreceiver, alike_size hargs]
        exact hm.intern _
      case h_5 => exact hm.raiseNamed hargs
      case h_6 =>
        exact Renaming.gives_collecting (hm.raiseNamed hargs)
      case h_7 =>
        rw [get_bind_native, get_bind_native, htext]
        exact hm.raise _ _
      case h_8 => exact hm.raiseValue (hargument 0)
      case h_9 => exact ⟨ρ, trivial, hm, .none⟩
      case h_10 =>
        have htarget := hm.global? "target"
        rw [get_bind_native, get_bind_native]
        generalize m.global? "target" = v? at htarget
        generalize n.global? "target" = w? at htarget
        cases htarget with
        | none => exact hm.raise _ _
        | some hvw => exact hm.give hvw
      case h_11 =>
        have hglobal := hm.global? (argumentText m args 0)
        rw [get_bind_native, get_bind_native, ← htext]
        generalize m.global? (argumentText m args 0) = v? at hglobal
        generalize n.global? (argumentText m args 0) = w? at hglobal
        cases hglobal with
        | none => exact hm.give .nil
        | some hvw => exact hm.give hvw
      case h_12 =>
        obtain ⟨σ, hle, hσ⟩ := hm.defineGlobal (argumentText m args 0) (hargument 1)
        refine ⟨σ, trivial, ?_, .some ((hargument 1).mono hle)⟩
        show σ.Mirrors (m.defineGlobal (argumentText m args 0) (argument args 1))
          (n.defineGlobal (argumentText n args' 0) (argument args' 1))
        rwa [← htext]
      case h_13 =>
        rw [get_bind_native, get_bind_native, hm.size]
        exact hm.give (.number _)
      case h_14 => exact absurd rfl ‹¬"collect" = "collect"›
      case h_15 => exact hm.refuse (.internal .callWhileRunning)
      case h_16 => exact hm.refuse (.internal .runWhileRunning)
      case h_17 => exact hm.give .nil
  stack name receiver args m := by
    unfold reticent
    split
    · rfl
    · have hperformed := performed_stock .closed name receiver args m
      generalize stock .closed name receiver args m = outcome at hperformed ⊢
      cases hperformed with
      | raises kind message | raisesAndCollects kind message => exact stack_raise kind message m
      | calls | runs => exact stack_answer _ m
      | _ => rfl

end Host

end ScriptMachine
