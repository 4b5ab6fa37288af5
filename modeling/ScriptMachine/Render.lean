import ScriptMachine.Heap
import ScriptMachine.Numeric.Numeral
import ScriptMachine.Text.Quoted

/-!
The text of a value. A text alone is shown as it is, inside a container between quotes. Arrays
and dicts show their elements up to eight levels deep; deeper ones are an ellipsis, so a container
that holds itself has a text too.
-/

namespace ScriptMachine.Heap

/-- Containers nested this deep are an ellipsis. -/
def depthLimit : Nat := 8

def renderText (h : Heap) (quoted : Bool) (v : Value) : String :=
  let text := (h.text? v).getD ""
  if quoted then Quoted.quote text else text

def renderFunction (proto : Prototype) : String := s!"<function {proto.name}({proto.arity})>"

/-- The name of the class behind a reference. -/
def className (h : Heap) (r : Ref) : String :=
  match h.class? r with
  | some c => c.name
  | none => "?"

def renderArray (items : Array Value) : Option (Value → String) → String
  | none => "[...]"
  | some element => "[" ++ ", ".intercalate (items.toList.map element) ++ "]"

def renderDict (h : Heap) (d : Dict) : Option (Value → String) → String
  | none => "\x7b...\x7d"
  | some element =>
    let pair (key : Value) := element key ++ ": " ++ element ((d.table.get? h.pool key).getD .nil)
    "\x7b" ++ ", ".intercalate (d.keys.toList.map pair) ++ "\x7d"

/-- The text of a value, given how to show elements of containers; without that, containers are
an ellipsis. A bound method shows its method; `links` bounds how many of them may follow one
another. -/
def renderWith (h : Heap) (element : Option (Value → String)) :
    (links : Nat) → Bool → Value → String
  | links, quoted, v =>
    match v with
    | .nil => "null"
    | .bool b => if b then "true" else "false"
    | .number x => Numeral.render x
    | .ref (.text _) => h.renderText quoted v
    | .ref r =>
      match h.get? r with
      | none => "<freed>"
      | some (.function proto) => renderFunction proto
      | some (.closure c) => renderFunction c.proto
      | some (.native n) => s!"<function {n.name}(native)>"
      | some (.bound b) =>
        match links with
        | 0 => ""
        | links + 1 => renderWith h element links false b.method
      | some (.upvalue _) => "<upvalue>"
      | some (.cls c) => s!"<class {c.name}>"
      | some (.inst i) => s!"<instance of {h.className i.cls}>"
      | some (.range r) => s!"<range {Numeral.render r.lower} .. {Numeral.render r.upper}>"
      | some (.switch _) => "<switch>"
      | some (.array items) => renderArray items element
      | some (.dict d) => h.renderDict d element

/-- A chain of bound methods without a repetition is no longer than the arena. -/
def linkLimit (h : Heap) : Nat := h.objects.slots.size

/-- The text of a value with `room` levels of containers. -/
def renderAt (h : Heap) : (room : Nat) → Bool → Value → String
  | 0 => h.renderWith none h.linkLimit
  | room + 1 => h.renderWith (some (renderAt h room true)) h.linkLimit

/-- The text of a value; a text is shown as it is. -/
def render (h : Heap) (v : Value) : String := h.renderAt depthLimit false v

/-- The text of a value; a text is shown between quotes. -/
def renderQuoted (h : Heap) (v : Value) : String := h.renderAt depthLimit true v

end ScriptMachine.Heap
