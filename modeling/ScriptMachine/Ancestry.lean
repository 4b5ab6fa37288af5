import ScriptMachine.Heap

/-!
Class chains. A method is looked for in a class and then in one superclass after the other. The
superclasses of a class may run in a circle; a search that meets neither what it looks for nor the
end of the chain is endless. A chain without repetition is no longer than the arena, so that many
steps tell the cases apart.
-/

namespace ScriptMachine

/-- How a search along a chain ends. -/
inductive Search (α : Type) where
  | found (a : α)
  | absent
  /-- The chain is a circle without what is looked for. -/
  | endless
deriving DecidableEq, Repr

namespace Heap

/-- The most classes a chain without repetition can have. -/
def chainLimit (h : Heap) : Nat := h.objects.slots.size + 1

/-- The first class from r upward that `pick` takes. -/
def climb {α : Type} (h : Heap) (pick : Ref → Class → Option α) : (fuel : Nat) → Ref → Search α
  | 0, _ => .endless
  | fuel + 1, r =>
    match h.class? r with
    | none => .absent
    | some c =>
      match pick r c with
      | some a => .found a
      | none =>
        match c.superclass with
        | none => .absent
        | some s => climb h pick fuel s

/-- The method of a name in a class or the nearest superclass that has it. -/
def findMethod (h : Heap) (r : Ref) (name : Value) : Search Entry :=
  h.climb (fun _ c => c.methods.entry? h.pool name) h.chainLimit r

/-- The class of an instance. -/
def instanceClass? (h : Heap) (v : Value) : Option Ref :=
  match h.object? v with
  | some (.inst i) => some i.cls
  | _ => none

/-- Whether a chain of classes from r upward passes a given class. What is not a class ends the
chain, and may itself be the one asked for. -/
def reaches (h : Heap) (target : Ref) : (fuel : Nat) → Ref → Search Unit
  | 0, _ => .endless
  | fuel + 1, r =>
    if r = target then .found ()
    else
      match (h.class? r).bind Class.superclass with
      | none => .absent
      | some s => reaches h target fuel s

/-- Whether a value is an instance of a class or of a subclass of it. -/
def isInstanceOf (h : Heap) (v : Value) (target : Ref) : Search Unit :=
  match h.instanceClass? v with
  | none => .absent
  | some r => h.reaches target h.chainLimit r

/-- The classes from r upward, the nearest first. -/
def chain (h : Heap) : (fuel : Nat) → Ref → Option (List Class)
  | 0, _ => none
  | fuel + 1, r =>
    match h.class? r with
    | none => some []
    | some c =>
      match c.superclass with
      | none => some [c]
      | some s => (chain h fuel s).map (c :: ·)

/-- The fields a new instance starts with: the defaults of the whole chain, the farthest class
first. -/
def initialFields? (h : Heap) (r : Ref) : Option Table :=
  (h.chain h.chainLimit r).map fun classes =>
    classes.reverse.foldl (fun fields c => fields.addAll h.pool c.defaults) {}

end Heap

end ScriptMachine
