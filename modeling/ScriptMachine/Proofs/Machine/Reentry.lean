import ScriptMachine.Proofs.Machine.StockNatives
import ScriptMachine.Proofs.Machine.NativesInCalls
import ScriptMachine.Proofs.Machine.Runs

/-!
Natives that ask the machine that runs them for a call or a script. While a call is under way the
machine refuses and stays as it is, so to a script its natives are natives that are always refused.

A native that the host calls itself runs while no call is under way, and what it asks for is done.
The stack holds the callee and the arguments of the native then; a native that it calls leaves the
stack empty.
-/

namespace ScriptMachine

/-- Refuses every request. -/
def Reentry.refusing : Reentry where
  call _ _ m := (.failed (.internal .callWhileRunning), m)
  run _ m := (.failed (.internal .runWhileRunning), m)

structure Reentry.SameInCall (r s : Reentry) : Prop where
  call : ∀ callee args, Machine.SameInCall (r.call callee args) (s.call callee args)
  run : ∀ proto, Machine.SameInCall (r.run proto) (s.run proto)

/-- Natives cannot end the calls under way, and know how their requests are served from the answers
alone. -/
def ReentrantHost.Sealed (host : ReentrantHost) : Prop :=
  ∀ r s : Reentry, r.SameInCall s → (host r).SameInCall (host s)

namespace Machine

/-! Requests. -/

theorem run_of_frames {m : Machine} (hframes : m.frames ≠ []) (host : Host) (fuel : Nat)
    (proto : Prototype) :
    run host fuel proto m = (.failed (.internal .runWhileRunning), m) := by
  unfold run
  rw [if_pos (by simpa using hframes)]

theorem call_of_frames {m : Machine} (hframes : m.frames ≠ []) (host : Host) (fuel : Nat)
    (callee : Value) (args : Array Value) :
    call host fuel callee args m = (.failed (.internal .callWhileRunning), m) := by
  unfold call
  rw [if_pos (by simpa using hframes)]

end Machine

namespace Reentry

theorem sameInCall_closed : closed.SameInCall refusing where
  call _ _ m hframes := by
    refine ⟨?_, hframes⟩
    show ((if m.frames.isEmpty then Verdict.unfinished else _), m) = _
    rw [if_neg (by simpa using hframes)]
    rfl
  run _ m hframes := by
    refine ⟨?_, hframes⟩
    show ((if m.frames.isEmpty then Verdict.unfinished else _), m) = _
    rw [if_neg (by simpa using hframes)]
    rfl

theorem sameInCall_machine (host : Host) (fuel : Nat) :
    SameInCall { call := Machine.call host fuel, run := Machine.run host fuel } refusing where
  call callee args _ hframes := ⟨Machine.call_of_frames hframes host fuel callee args, hframes⟩
  run proto _ hframes := ⟨Machine.run_of_frames hframes host fuel proto, hframes⟩

end Reentry

theorem ReentrantHost.Sealed.natives {host : ReentrantHost} (hsealed : host.Sealed)
    (bound depth : Nat) : (host.natives bound depth).SameInCall (host .refusing) := by
  cases depth with
  | zero => exact hsealed _ _ Reentry.sameInCall_closed
  | succ depth => exact hsealed _ _ (Reentry.sameInCall_machine _ bound)

/-- Whether a native takes a number of arguments. -/
def NativeFunction.takes (n : NativeFunction) (count : Nat) : Bool :=
  n.arity.all fun arity => count == arity

namespace Machine

open World

variable {host : Host} {m : Machine}

/-! Natives that are called directly. -/

/-- The callee and the arguments of a call are on the stack. -/
def placing (m : Machine) (callee : Value) (args : Array Value) : Machine :=
  { m with stack := m.stack.push callee ++ args }

theorem calleeSlot_placing (callee : Value) (args : Array Value) :
    calleeSlot args.size (m.placing callee args) = .ok m.stack.size (m.placing callee args) := by
  have hsize : (m.placing callee args).stack.size = m.stack.size + 1 + args.size := by
    simp [placing]
  rw [calleeSlot_of_lt (by omega), hsize]
  congr 1
  omega

theorem runNative_placing {n : NativeFunction} {args : Array Value}
    (htakes : n.takes args.size = true) (callee : Value) :
    runNative host n args.size (m.placing callee args) =
      runRoutine host n.routine callee args (m.placing callee args) := by
  have hrun : (do
        let base ← calleeSlot args.size
        let m ← get
        runRoutine host n.routine (m.stack.getD base .nil)
          (m.stack.extract (base + 1) m.stack.size) : Exec Value) (m.placing callee args) =
      runRoutine host n.routine callee args (m.placing callee args) := by
    rw [bind_of_ok (calleeSlot_placing callee args), get_bind]
    congr 1
    · simp [placing, Array.getElem?_append]
    · simp [placing]
  unfold runNative
  unfold NativeFunction.takes at htakes
  cases harity : n.arity with
  | none => exact hrun
  | some arity =>
    rw [harity] at htakes
    dsimp only
    rw [if_neg (by simpa using htakes)]
    exact hrun

theorem callValue_placing {n : NativeFunction} {callee : Value} {args : Array Value}
    (hcallee : m.heap.callee? callee = some (.native n)) :
    callValue host callee args.size (m.placing callee args) =
      callNative host n args.size (m.placing callee args) := by
  have hfound : (m.placing callee args).heap.callee? callee = some (.native n) := hcallee
  have htarget : callTarget host (m.placing callee args) callee args.size =
      callNative host n args.size := by
    unfold callTarget
    rw [hfound]
  have hunbind : (m.placing callee args).heap.unbind (m.placing callee args).heap.linkLimit none
      callee = some (none, callee) := by
    unfold Heap.unbind
    rw [hfound]
  unfold callValue
  rw [get_bind, hunbind]
  exact congrFun htarget _

/-- What a native gives is taken off the stack, and everything below it. -/
theorem takeResult_replaceFrom (base : Nat) (v : Value) (q : Machine) :
    (do replaceFrom base v; takeResult : Exec Value) q = .ok v { q with stack := #[] } := by
  have hpop : pop { q with stack := (q.stack.shrink base).push v } =
      .ok v { q with stack := ((q.stack.shrink base).push v).pop } := by
    unfold pop
    rw [get_bind, Array.back?_push]
    rfl
  have hreplace : replaceFrom base v q = .ok () { q with stack := (q.stack.shrink base).push v } :=
    rfl
  rw [bind_of_ok hreplace]
  unfold takeResult
  rw [bind_of_ok hpop]
  rfl

/-- A native that is called while no call is under way gives the result, and the stack is empty. -/
theorem call_native {n : NativeFunction} {callee v : Value} {args : Array Value} {q : Machine}
    (hidle : m.frames = []) (hcallee : m.heap.callee? callee = some (.native n))
    (htakes : n.takes args.size = true)
    (hnative : native host n.routine callee args (m.placing callee args) = (some v, q))
    (hleft : q.frames = []) (fuel : Nat) :
    call host fuel callee args m = (.ended (.returned v), { q with stack := #[] }) := by
  have hrun : runNative host n args.size (m.placing callee args) = .ok v q := by
    rw [runNative_placing htakes]
    unfold runRoutine
    rw [modifyGet_bind, hnative]
    rfl
  let given : Machine := { q with stack := (q.stack.shrink m.stack.size).push v }
  have hcalled : throwing () (callValue host callee args.size) (m.placing callee args) =
      .ok () given := by
    unfold throwing
    rw [callValue_placing hcallee]
    unfold callNative
    rw [bind_of_ok (calleeSlot_placing callee args), bind_of_ok hrun]
    rfl
  have hend : takeResult given = .ok v { q with stack := #[] } :=
    takeResult_replaceFrom m.stack.size v q
  have hnone : ¬ (!m.frames.isEmpty) = true := by
    rw [hidle]
    nofun
  have hempty : given.frames.isEmpty = true := List.isEmpty_iff.2 hleft
  unfold placing at hcalled
  unfold call
  rw [if_neg hnone]
  dsimp only
  rw [hcalled]
  dsimp only
  rw [if_pos hempty, hend]

/-! Requests in calls. -/

/-- What becomes of the requests of natives. -/
structure RequestsRefused (host : ReentrantHost) : Prop where
  /-- While a call is under way the machine refuses and stays as it is. -/
  call : ∀ (natives : Host) fuel callee args (m : Machine), m.frames ≠ [] →
    Machine.call natives fuel callee args m = (.failed (.internal .callWhileRunning), m)
  run : ∀ (natives : Host) fuel proto (m : Machine), m.frames ≠ [] →
    Machine.run natives fuel proto m = (.failed (.internal .runWhileRunning), m)
  /-- A script of the host, or of a native that the host has called, does what it does with natives
  that are always refused. -/
  scripts : ∀ bound depth fuel proto (m : Machine),
    Machine.run (host.natives bound depth) fuel proto m =
      Machine.run (host .refusing) fuel proto m
  /-- So does a call that starts none of them at once. -/
  calls : ∀ bound depth fuel callee args (m : Machine), ¬ m.heap.StartsNative callee →
    Machine.call (host.natives bound depth) fuel callee args m =
      Machine.call (host .refusing) fuel callee args m
  /-- While no call is under way, a call of a native is carried out, for the host and for a native
  that the host has called, and leaves nothing on the stack. -/
  direct : ∀ (natives : Host) fuel (n : NativeFunction) callee args v (m q : Machine),
    m.frames = [] → m.heap.callee? callee = some (.native n) → n.takes args.size = true →
      native natives n.routine callee args (m.placing callee args) = (some v, q) →
        q.frames = [] →
          Machine.call natives fuel callee args m = (.ended (.returned v), { q with stack := #[] })

/-- Whatever natives ask for in the calls of a script is refused. Only a native that is called while
no call is under way has its requests carried out. -/
theorem requests_refused_in_calls {host : ReentrantHost} (hsealed : host.Sealed) :
    RequestsRefused host where
  call natives fuel callee args _ hframes := call_of_frames hframes natives fuel callee args
  run natives fuel proto _ hframes := run_of_frames hframes natives fuel proto
  scripts bound depth fuel proto m := run_congr (hsealed.natives bound depth) fuel proto m
  calls bound depth fuel _ args _ hstarts :=
    call_congr (hsealed.natives bound depth) hstarts fuel args
  direct _ fuel _ _ _ _ _ _ hidle hcallee htakes hnative hleft :=
    call_native hidle hcallee htakes hnative hleft fuel

end Machine

/-! The stock natives. -/

namespace Host

open Machine

theorem frames_raise (kind : ExceptionKind) (message : String) (m : Machine) :
    (raise kind message m).2.frames = m.frames := by
  show (m.makeException kind message).2.frames = m.frames
  unfold makeException
  exact frames_setField _ _ _ _

theorem frames_answer (v : Verdict) (m : Machine) : (answer v m).2.frames = m.frames := by
  cases v with
  | failed f => exact frames_raise _ _ m
  | _ => rfl

/-- A request is answered the same if its outcomes are the same. -/
theorem sameInCall_answer {x y : StateM Machine Verdict} (hxy : Machine.SameInCall x y) :
    Machine.SameInCall (do answer (← x)) (do answer (← y)) := by
  intro m hframes
  obtain ⟨hsame, hstays⟩ := hxy m hframes
  have hx : (do answer (← x) : StateM Machine (Option Value)) m = answer (x m).1 (x m).2 := rfl
  have hy : (do answer (← y) : StateM Machine (Option Value)) m = answer (y m).1 (y m).2 := rfl
  rw [hx, hy, hsame, frames_answer]
  exact ⟨rfl, hstays⟩

theorem sealed_stock : stock.Sealed := by
  intro r s hrs name receiver args m hframes
  have hraise (kind : ExceptionKind) (message : String) : (raise kind message m).2.frames ≠ [] := by
    rwa [frames_raise]
  unfold stock
  split
  · exact ⟨rfl, hframes⟩
  · exact ⟨rfl, hframes⟩
  · exact ⟨rfl, hframes⟩
  · exact ⟨rfl, hframes⟩
  · exact ⟨rfl, hraise _ _⟩
  · exact ⟨rfl, hraise (.ofName (argumentText m args 0)) (argumentText m args 1)⟩
  · exact ⟨rfl, hraise _ _⟩
  · exact ⟨rfl, hframes⟩
  · exact ⟨rfl, hframes⟩
  · refine ⟨rfl, ?_⟩
    rw [get_bind_native]
    cases m.global? "target" with
    | some v => exact hframes
    | none => exact hraise _ _
  · exact ⟨rfl, hframes⟩
  · exact ⟨rfl, hframes⟩
  · exact ⟨rfl, hframes⟩
  · exact ⟨rfl, hframes⟩
  · exact sameInCall_answer (hrs.call _ _) m hframes
  · exact sameInCall_answer (hrs.run _) m hframes
  · exact ⟨rfl, hframes⟩

/-- The native that calls its first argument. -/
theorem reenter_natives {bound depth : Nat} {callee arg : Value} {m q : Machine} {v : Verdict}
    (hcall : Machine.call (stock.natives bound depth) bound callee #[arg] m = (v, q))
    (receiver : Value) :
    stock.natives bound (depth + 1) "reenter" receiver #[callee, arg] m = answer v q := by
  have hasks (natives : Host) :
      stock { call := Machine.call natives bound, run := Machine.run natives bound } "reenter"
          receiver #[callee, arg] m =
        answer (Machine.call natives bound callee #[arg] m).1
          (Machine.call natives bound callee #[arg] m).2 := rfl
  refine (hasks (stock.natives bound depth)).trans ?_
  rw [hcall]

end Host

namespace Machine

/-- A machine with a native that calls its argument, and one that gives it back. -/
def withReenter : Machine :=
  let m := (bare.defineNative { name := "reenter", arity := none, routine := .host "reenter" }).2
  (m.defineNative { name := "id", arity := some 1, routine := .host "id" }).2

def reenter : Value := .ref (.object 0)

def identity : Value := .ref (.object 1)

/-- Where the host calls it directly, the native calls its argument. -/
theorem requests_refused_in_calls_stock :
    Host.stock.Sealed ∧ (Host.stock.call 8 reenter #[identity, .bool true] withReenter).1 =
      .ended (.returned .nil) := by
  have hrefused := requests_refused_in_calls Host.sealed_stock
  let placed := withReenter.placing reenter #[identity, .bool true]
  have hinner : call (Host.stock.natives 8 2) 8 identity #[.bool true] placed =
      (.ended (.returned (.bool true)), { withReenter with stack := #[] }) :=
    hrefused.direct _ 8 _ identity #[.bool true] _ placed (placed.placing identity #[.bool true])
      rfl rfl rfl rfl rfl
  have houter : native (Host.stock.natives 8 3) (.host "reenter") reenter #[identity, .bool true]
      placed = (some .nil, { withReenter with stack := #[] }) :=
    Host.reenter_natives hinner reenter
  have hcall := hrefused.direct (Host.stock.natives 8 3) 8 _ reenter #[identity, .bool true] _
    withReenter _ rfl rfl rfl houter rfl
  exact ⟨Host.sealed_stock, congrArg Prod.fst hcall⟩

end Machine

end ScriptMachine
