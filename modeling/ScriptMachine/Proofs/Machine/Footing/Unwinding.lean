import ScriptMachine.Proofs.Machine.Exits
import ScriptMachine.Proofs.Machine.Footing

/-!
Ways out of regions and calls, as the stack sees them. Values go off the top, and the captured
variables among them are closed before. At most one value comes back: the exception for its handler,
or the value of a call for its caller.
-/

namespace ScriptMachine

/-- What a call leaves in the slot of its callee: a constructor leaves its receiver. -/
def Frame.result (f : Frame) (stack : Array Value) (value : Value) : Value :=
  if f.proto.kind = .initializer then stack.getD f.base .nil else value

namespace Machine

variable {m m' m'' : Machine} {f : Frame} {rest : List Frame} {value : Value}

/-- Values go off the stack from the top, and the captured variables among them are closed
before. -/
inductive Recedes (m : Machine) : Machine → Prop where
  | refl : Recedes m m
  | steer {m' : Machine} {frames : List Frame} (h : Recedes m m')
      (hle : frames.length ≤ m'.frames.length) (regions : List Region)
      (completions : List Pending) : Recedes m (m'.steer frames regions completions)
  | close {m' : Machine} (h : Recedes m m') (start : Nat) : Recedes m (m'.closeUpvalues start)
  | shed {m' : Machine} (h : Recedes m m') (size : Nat) :
      Recedes m ((m'.closeUpvalues size).truncate size)

/-- A machine goes on elsewhere, with at most one value more. -/
structure Lands (m m' : Machine) : Prop where
  length : m'.frames.length = m.frames.length
  heap : m'.heap = m.heap
  openUpvalues : m'.openUpvalues = m.openUpvalues
  stack : m'.stack = m.stack ∨ ∃ v, m'.stack = m.stack.push v

/-- The result of an action that goes on elsewhere. -/
def Arrives {α : Type} (m : Machine) : EStateM.Result Signal Machine α → Prop
  | .ok _ m' => ∃ q, Recedes m q ∧ Lands q m'
  | .error s _ => s.isRaised = false

namespace Recedes

theorem trans (h : Recedes m m') (h' : Recedes m' m'') : Recedes m m'' := by
  induction h' with
  | refl => exact h
  | steer _ hle regions completions ih => exact ih.steer hle regions completions
  | close _ start ih => exact ih.close start
  | shed _ size ih => exact ih.shed size

theorem rests (h : Recedes m m') : Rests 0 none m.stack m'.stack := by
  induction h with
  | refl => exact .refl m.stack
  | steer _ _ _ _ ih => exact ih
  | close _ _ ih => exact ih
  | @shed m' _ size ih => exact ih.trans (.shrink m'.stack size)

theorem length_le (h : Recedes m m') : m'.frames.length ≤ m.frames.length := by
  induction h with
  | refl => exact le_refl _
  | steer _ hle _ _ ih => exact hle.trans ih
  | close _ _ ih => exact ih
  | shed _ _ ih => exact ih

end Recedes

theorem Lands.rests (h : Lands m m') : Rests 1 none m.stack m'.stack := by
  rcases h.stack with hsame | ⟨v, hpush⟩
  · rw [hsame]
    exact (Rests.refl m.stack).mono (Nat.zero_le 1)
  · rw [hpush]
    exact (Rests.refl m.stack).push v

theorem Arrives.after {α : Type} {e : EStateM.Result Signal Machine α} (h : Recedes m m')
    (harrives : Arrives m' e) : Arrives m e := by
  cases e with
  | ok a p =>
    obtain ⟨q, hq, hlands⟩ := harrives
    exact ⟨q, h.trans hq, hlands⟩
  | error s p => exact harrives

/-! Throwing. -/

theorem recedes_popFrames (m : Machine) (depth : Nat) : Recedes m (m.popFrames depth) := by
  have hclosed (gone : List Frame) (q : Machine) :
      Recedes q (gone.foldl (fun m f => m.closeUpvalues f.base) q) := by
    induction gone generalizing q with
    | nil => exact .refl
    | cons f gone ih =>
      have hfirst : Recedes q (q.closeUpvalues f.base) := .close .refl _
      exact hfirst.trans (ih _)
  have hgone := hclosed (m.frames.take (m.frames.length - depth)) m
  exact hgone.steer (by rw [List.length_drop]; exact Nat.sub_le _ _) _ _

theorem recedes_unwindTo (m : Machine) (region : Region) (left : Nat) :
    Recedes m (m.unwindTo region left) := by
  let completions := m.completions.dropWhile fun p => decide (left < p.tryDepth)
  have hdropped : Recedes m (m.steer m.frames m.regions completions) :=
    .steer .refl (le_refl _) _ _
  exact (hdropped.trans (recedes_popFrames _ region.frameDepth)).shed region.stackDepth

/-- A jump behind what has landed. -/
theorem arrives_jumpTo {q : Machine} (hlands : Lands m q) (offset : Nat) :
    Arrives m (jumpTo offset q) := by
  unfold jumpTo modifyFrame
  rw [get_bind]
  cases hframes : q.frames with
  | nil => rfl
  | cons f rest =>
    have hlength := hlands.length
    rw [hframes] at hlength
    exact ⟨m, .refl, hlength, hlands.heap, hlands.openUpvalues, hlands.stack⟩

/-- A finally block begins. -/
theorem arrives_begin {q : Machine} (hrecedes : Recedes m q) (c : Completion) (block : Nat) :
    Arrives m ((do pushCompletion c; jumpTo block : Exec Unit) q) := by
  let pending : Pending :=
    { tryDepth := q.regions.length, frameDepth := q.frames.length, completion := c }
  let pushed := q.steer q.frames q.regions (pending :: q.completions)
  have hpushed : Lands q pushed := ⟨rfl, rfl, rfl, Or.inl rfl⟩
  exact Arrives.after hrecedes (arrives_jumpTo hpushed block)

theorem arrives_unhandled {α : Type} (e : Value) (m : Machine) :
    Arrives m ((unhandled e : Exec α) m) := by
  obtain ⟨f, m', heq, -⟩ := @kept_unhandled (fun _ _ _ m => (none, m)) α e m
  rw [heq]
  rfl

theorem arrives_propagateThrough (e : Value) (regions : List Region) (m : Machine) :
    Arrives m (propagateThrough e regions m) := by
  induction regions generalizing m with
  | nil =>
    unfold propagateThrough
    rw [modify_bind]
    have hleft : Recedes m (m.steer m.frames [] m.completions) :=
      .steer .refl (le_refl _) _ _
    exact (arrives_unhandled e _).after hleft
  | cons region rest ih =>
    unfold propagateThrough
    rw [modify_bind]
    have hleft : Recedes m (m.steer m.frames rest m.completions) :=
      .steer .refl (le_refl _) _ _
    have hback : Recedes m (({ m with regions := rest } : Machine).unwindTo region rest.length) :=
      hleft.trans (recedes_unwindTo _ region rest.length)
    revert hback
    generalize ({ m with regions := rest } : Machine).unwindTo region rest.length = back
    intro hback
    refine Arrives.after hback ?_
    have hheld (c : Completion) (block : Nat) :
        Arrives back ((do pushCompletion c; jumpTo block : Exec Unit) back) :=
      arrives_begin .refl c block
    have hcaught (handler : Nat) :
        Arrives back ((do push e; jumpTo handler : Exec Unit) back) := by
      let pushed : Machine := { back with stack := back.stack.push e }
      have hpushed : Lands back pushed := ⟨rfl, rfl, rfl, Or.inr ⟨e, rfl⟩⟩
      exact arrives_jumpTo hpushed handler
    rcases accepts_cases region e back with ⟨taken, haccepts, -⟩ | hendless
    · rw [bind_of_ok haccepts]
      cases taken with
      | false =>
        cases region.finally? with
        | none => exact ih back
        | some block => exact hheld _ block
      | true =>
        cases region.handler? with
        | none =>
          cases region.finally? with
          | none => exact ih back
          | some block => exact hheld _ block
        | some handler =>
          cases region.finally? with
          | none => exact hcaught handler
          | some block => exact hheld _ block
    · rw [bind_of_error hendless]
      rfl

theorem spares_attachTrace (m : Machine) (e : Value) : m.Spares (m.attachTrace e) := by
  have hlines (lines : List String) (q : Machine) : q.Spares (q.internAll lines).2 := by
    induction lines generalizing q with
    | nil => exact .refl q
    | cons line rest ih => exact (Spares.intern q line).trans (ih _)
  unfold attachTrace
  split
  · have hmade : m.Spares ((m.internAll m.stackTrace).2.alloc
        (.array (m.internAll m.stackTrace).1.toArray)).2 := (hlines _ m).trans (.alloc _ rfl)
    exact hmade.trans (.setField _ _ _ _)
  · exact .refl m

@[simp] theorem stack_attachTrace (m : Machine) (e : Value) : (m.attachTrace e).stack = m.stack := by
  have hlines (lines : List String) (q : Machine) : (q.internAll lines).2.stack = q.stack := by
    induction lines generalizing q with
    | nil => rfl
    | cons line rest ih => exact ih _
  unfold attachTrace
  split
  · exact (stack_setField _ _ _ _).trans (hlines _ m)
  · rfl

/-! Returning. -/

@[simp] theorem frames_attachTrace (m : Machine) (e : Value) :
    (m.attachTrace e).frames = m.frames := by
  have hlines (lines : List String) (q : Machine) : (q.internAll lines).2.frames = q.frames := by
    induction lines generalizing q with
    | nil => rfl
    | cons line rest ih => exact ih _
  unfold attachTrace
  split
  · exact (frames_setField _ _ _ _).trans (hlines _ m)
  · rfl

/-- The innermost call is over, and its value is on top of what the caller has. -/
structure Yields (f : Frame) (value : Value) (m m' : Machine) : Prop where
  heap : m'.heap = (m.closeUpvalues f.base).heap
  openUpvalues : m'.openUpvalues = (m.closeUpvalues f.base).openUpvalues
  stack : m'.stack = (m.stack.shrink f.base).push (f.result m.stack value)

/-- The result of a return. -/
def Retires (f : Frame) (rest : List Frame) (value : Value) (m : Machine) :
    EStateM.Result Signal Machine (Option Value) → Prop
  | .ok none m' =>
    (∃ q, Recedes m q ∧ Lands q m' ∧ m'.frames.length = m.frames.length) ∨
      Yields f value m m' ∧ m'.frames = rest
  | .ok (some _) m' => Recedes m m'
  | .error s _ => s.isRaised = false

theorem Retires.after_steer {regions : List Region} {completions : List Pending}
    {e : EStateM.Result Signal Machine (Option Value)}
    (h : Retires f rest value (m.steer m.frames regions completions) e) :
    Retires f rest value m e := by
  have hsteered : Recedes m (m.steer m.frames regions completions) :=
    .steer .refl (le_refl _) _ _
  cases e with
  | ok w m' =>
    cases w with
    | none =>
      rcases h with ⟨q, hq, hlands, hlength⟩ | ⟨hyields, hframes⟩
      · exact Or.inl ⟨q, hsteered.trans hq, hlands, hlength⟩
      · exact Or.inr ⟨⟨hyields.heap, hyields.openUpvalues, hyields.stack⟩, hframes⟩
    | some v => exact hsteered.trans h
  | error s m' => exact h

theorem retires_leaveFrame (hframes : m.frames = f :: rest) (value : Value) :
    Retires f rest value m (leaveFrame value m) := by
  unfold leaveFrame
  rw [get_bind, hframes]
  cases rest with
  | nil =>
    have hshed : Recedes m ((m.closeUpvalues f.base).truncate f.base) := .shed .refl f.base
    exact hshed.steer (Nat.zero_le _) _ _
  | cons g rest => exact Or.inr ⟨⟨rfl, rfl, rfl⟩, rfl⟩

theorem retires_returnThrough (hframes : m.frames = f :: rest) (value : Value) (depth : Nat)
    (regions : List Region) : Retires f rest value m (returnThrough value depth regions m) := by
  induction regions generalizing m with
  | nil => exact retires_leaveFrame hframes value
  | cons region older ih =>
    unfold returnThrough
    by_cases hdepth : region.frameDepth = depth
    · rw [if_pos hdepth, modify_bind]
      let left := m.steer m.frames older m.completions
      have hleft : left.frames = f :: rest := hframes
      cases hfinally : region.finally? with
      | none =>
        exact Retires.after_steer (ih hleft)
      | some block =>
        let pending : Pending :=
          { tryDepth := older.length, frameDepth := m.frames.length, completion := .giveBack value }
        let shed := (left.closeUpvalues region.stackDepth).truncate region.stackDepth
        let pushed := shed.steer shed.frames shed.regions (pending :: m.completions)
        have hpushed : pushed.frames = f :: rest := hframes
        have hshed : Recedes m shed := .shed (.steer .refl (le_refl _) _ _) _
        show Retires f rest value m ((jumpTo block >>= fun _ => pure none : Exec _) pushed)
        rw [bind_of_ok (jumpTo_eq hpushed block)]
        have hlength : (pushed.atOffset block).frames.length = m.frames.length :=
          length_frames_atOffset pushed block
        exact Or.inl ⟨shed, hshed, ⟨hlength, rfl, rfl, Or.inl rfl⟩, hlength⟩
    · rw [if_neg hdepth]
      exact retires_leaveFrame hframes value

end Machine

end ScriptMachine
