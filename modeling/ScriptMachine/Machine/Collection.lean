import ScriptMachine.Machine.State

/-!
Collections of a machine. Everything that can be reached from the stack, the frames, the globals,
the regions, the completions, the exception a native has raised, the built-in classes and names,
and the pinned values is kept.
-/

namespace ScriptMachine.Machine

/-- The references a collection starts from. -/
def roots (m : Machine) : List Ref :=
  m.stack.toList.flatMap Value.refs ++
  m.frames.map Frame.closure ++
  m.openUpvalues ++
  m.globals.refs ++
  m.regions.filterMap Region.filter? ++
  m.completions.flatMap (fun p => (p.completion.value?.map Value.refs).getD []) ++
  (m.raised?.map Value.refs).getD [] ++
  ExceptionKind.all.map m.builtins.exception ++
  Primitive.all.map m.builtins.primitive ++
  m.pinned.toList.flatMap Value.refs ++
  [m.builtins.message, m.builtins.stacktrace]

/-- Releases everything that cannot be reached. -/
def collect (m : Machine) : Heap.Released × Machine :=
  let refs := m.roots
  let (released, heap) := m.heap.collect refs
  (released, { m with heap })

/-- Keeps a value alive until it is unpinned. -/
def pin (m : Machine) (v : Value) : Machine := { m with pinned := m.pinned.push v }

/-- Takes back the last pin of a value, and says whether there was one. The last pinned value
takes its place. -/
def unpin (m : Machine) (v : Value) : Bool × Machine :=
  let matching := (List.range m.pinned.size).filter fun i => (m.pinned.getD i .nil).equals v
  match matching.getLast? with
  | some i =>
    let last := m.pinned.getD (m.pinned.size - 1) .nil
    (true, { m with pinned := (m.pinned.setIfInBounds i last).pop })
  | none => (false, m)

end ScriptMachine.Machine
