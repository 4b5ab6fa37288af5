import ScriptMachine.Machine.Variable

/-!
Leaving try regions and frames. A region is left by its end, by a return or by an exception, and
each way takes it off the list of regions, so its finally block begins once. While the block runs a
completion remembers how the region was left; the end of the block takes the completion off and
goes on from there.
-/

namespace ScriptMachine.Machine

/-- The names and source lines of the calls under way, the innermost last. -/
def stackTrace (m : Machine) : List String :=
  m.frames.reverse.map fun f => s!"from {f.proto.name}() in {f.proto.source}:{f.currentLine}"

/-- Drops everything of a run; globals and heap stay. -/
def reset (m : Machine) : Machine :=
  { m.closeUpvalues 0 with
    stack := #[], frames := [], regions := [], completions := [], raised? := none }

/-- Notes how a region was left whose finally block begins now. -/
def pushCompletion (completion : Completion) : Exec Unit :=
  modify fun m =>
    let pending : Pending :=
      { tryDepth := m.regions.length, frameDepth := m.frames.length, completion }
    { m with completions := pending :: m.completions }

/-! Exceptions. -/

/-- Class, message and trace of an exception in a report. -/
def describeException (m : Machine) (e : Value) : String × String × List String :=
  match m.heap.instanceClass? e with
  | some cls =>
    let message := ((m.field? e (.ref m.builtins.message)).map m.render).getD ""
    let lines :=
      match (m.field? e (.ref m.builtins.stacktrace)).bind m.heap.object? with
      | some (.array lines) => lines.toList.map m.render
      | _ => []
    (m.heap.className cls, message, lines)
  | none => (m.typeName e, m.render e, m.stackTrace)

/-- The text written for an exception that nothing handles. -/
def report (className message : String) (lines : List String) : String :=
  s!"Unhandled {className}: {message}\n" ++ String.join (lines.map fun line => s!"  {line}\n")

/-- Writes a report. That a write fails is passed over. -/
def writeReport (m : Machine) (text : String) : Machine :=
  { m with errors := (m.errors.write text).2 }

/-- Reports an exception and ends the run. -/
def unhandled {α : Type} (e : Value) : Exec α := do
  let m ← get
  let (className, message, lines) := m.describeException e
  set (m.writeReport (report className message lines)).reset
  fault (.unhandled className message lines)

/-- Takes frames off until `depth` are left, closing their variables. -/
def popFrames (m : Machine) (depth : Nat) : Machine :=
  let gone := m.frames.take (m.frames.length - depth)
  let m := gone.foldl (fun m f => m.closeUpvalues f.base) m
  { m with frames := m.frames.drop (m.frames.length - depth) }

/-- Takes the machine back to where a region was entered; `left` regions remain. -/
def unwindTo (m : Machine) (region : Region) (left : Nat) : Machine :=
  let m := { m with completions := m.completions.dropWhile fun p => decide (left < p.tryDepth) }
  let m := m.popFrames region.frameDepth
  (m.closeUpvalues region.stackDepth).truncate region.stackDepth

/-- Whether the handler of a region takes an exception. -/
def accepts (region : Region) (e : Value) : Exec Bool := do
  match region.filter? with
  | none => return true
  | some cls => return (← settle ((← get).heap.isInstanceOf e cls)).isSome

/-- Leaves one region after the other until one has a handler for the exception or a finally
block. -/
def propagateThrough (e : Value) : List Region → Exec Unit
  | [] => do
    modify fun m => { m with regions := [] }
    unhandled e
  | region :: rest => do
    modify fun m => { m with regions := rest }.unwindTo region rest.length
    match ← accepts region e, region.handler?, region.finally? with
    | true, some handler, none =>
      push e
      jumpTo handler
    | true, some handler, some block =>
      pushCompletion (.handle handler e)
      jumpTo block
    | _, _, some block =>
      pushCompletion (.rethrow e)
      jumpTo block
    | _, _, none => propagateThrough e rest

/-- Looks for the handler of an exception. -/
def propagate (e : Value) : Exec Unit := do propagateThrough e (← get).regions

/-- Interns the lines of a trace. -/
def internAll (m : Machine) : List String → List Value × Machine
  | [] => ([], m)
  | line :: rest =>
    let (v, m) := m.intern line
    let (vs, m) := m.internAll rest
    (v :: vs, m)

/-- Gives an exception its stack trace. -/
def attachTrace (m : Machine) (e : Value) : Machine :=
  if (m.heap.instanceClass? e).isSome then
    let (lines, m) := m.internAll m.stackTrace
    let (trace, m) := m.alloc (.array lines.toArray)
    m.setField e (.ref m.builtins.stacktrace) trace
  else m

/-- Throws an exception from where the machine stands. -/
def throwValue (e : Value) : Exec Unit := do
  modify fun m => m.attachTrace e
  propagate e

/-- Runs an action and throws the exception it raises. -/
def throwing {α : Type} (resume : α) (action : Exec α) : Exec α := fun m =>
  match action m with
  | .error (.raised e) m => (do throwValue e; return resume : Exec α) m
  | result => result

/-! Regions. -/

/-- The class a handler takes; a name that is no class stands for all exceptions. -/
def filterClass (m : Machine) (name : Value) : Ref :=
  match m.globals.get? m.heap.pool name with
  | some (.ref r) => if m.heap.isClass r then r else m.builtins.exception .exception
  | _ => m.builtins.exception .exception

/-- An address where zero stands for none. -/
def address? (n : UInt16) : Option Nat := if n = 0 then none else some n.toNat

/-- Enters a try region. -/
def enterTry : Exec Unit := do
  let type ← fetchConstant
  let handler ← fetchShort
  let block ← fetchShort
  let m ← get
  let frameDepth := m.frames.length
  let nested := (m.regions.takeWhile fun r => r.frameDepth == frameDepth).length
  if m.settings.maxTryDepth ≤ nested then misuse .tooManyRegions
  else
    let filter? := if handler = 0 || type.isNil then none else some (m.filterClass type)
    let region : Region :=
      { handler? := address? handler
        finally? := address? block
        filter?
        stackDepth := m.stack.size
        frameDepth }
    set { m with regions := region :: m.regions }

/-- Leaves the innermost region by its end. -/
def popTry : Exec Unit := do
  let m ← get
  match m.regions with
  | [] => breach .noRegion
  | region :: rest =>
    set { m with regions := rest }
    match region.finally? with
    | none => return
    | some block =>
      pushCompletion (.resume (← frame).ip)
      jumpTo block

/-- Throws the popped exception. -/
def throwTop : Exec Unit := do
  let e ← pop
  let m ← get
  match ← settle (m.heap.isInstanceOf e (m.builtins.exception .exception)) with
  | some () => throw (.raised e)
  | none => misuse .notAnException

/-! Returns. -/

/-- Takes the innermost frame off. Gives the value if it was the last frame, and pushes it
otherwise. A constructor returns its receiver. -/
def leaveFrame (value : Value) : Exec (Option Value) := do
  let m ← get
  match m.frames with
  | [] => breach .returnWithoutFrame
  | f :: rest =>
    let m := { m with frames := rest }.closeUpvalues f.base
    let value := if f.proto.kind = .initializer then m.stack.getD f.base .nil else value
    let m := m.truncate f.base
    let depth := rest.length
    set { m with completions := m.completions.dropWhile fun p => decide (depth < p.frameDepth) }
    if rest.isEmpty then return some value
    else
      push value
      return none

/-- Leaves the regions of the innermost frame until one has a finally block, else the frame. -/
def returnThrough (value : Value) (depth : Nat) : List Region → Exec (Option Value)
  | [] => leaveFrame value
  | region :: rest => do
    if region.frameDepth = depth then
      modify fun m => { m with regions := rest }
      match region.finally? with
      | some block =>
        modify fun m => (m.closeUpvalues region.stackDepth).truncate region.stackDepth
        pushCompletion (.giveBack value)
        jumpTo block
        return none
      | none => returnThrough value depth rest
    else leaveFrame value

/-- Returns a value from the innermost frame. Gives it if the last frame returned. -/
def finishReturn (value : Value) : Exec (Option Value) := do
  let m ← get
  returnThrough value m.frames.length m.regions

/-- Goes on with what a finally block has put off. -/
def complete : Completion → Exec (Option Value)
  | .resume offset => do
    jumpTo offset
    return none
  | .handle handler e => do
    push e
    jumpTo handler
    return none
  | .rethrow e => do
    propagate e
    return none
  | .giveBack value => finishReturn value

/-- Goes on from where a finally block was entered. Gives a value if the last frame returned. -/
def endFinally : Exec (Option Value) := do
  let m ← get
  match m.completions with
  | [] => breach .noCompletion
  | pending :: rest =>
    set { m with completions := rest }
    if pending.frameDepth ≠ m.frames.length then breach .completionFrame
    else complete pending.completion

end ScriptMachine.Machine
