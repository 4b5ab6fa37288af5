/-!
TOML documents as trees of tables. A statement of a document assigns a value to a dotted key or
opens a table; the tree refuses a statement that defines something a second time.
-/

namespace ScriptMachine.Toml

/-- How a table came to be. -/
inductive Origin where
  /-- By a header of its own, or as the whole document. -/
  | header
  /-- As part of the path of a header. -/
  | implied
  /-- As part of a dotted key. -/
  | dotted
deriving DecidableEq, Repr

/-- What a key stands for. Values that are neither integers nor truth values are not told apart. -/
inductive Item where
  | integer (n : Int)
  | boolean (b : Bool)
  | other
  | table (origin : Origin) (entries : List (String × Item))
  | tables (elements : List (List (String × Item)))

abbrev Entries := List (String × Item)

/-- One statement of a document. -/
inductive Statement where
  /-- A dotted key, all but its last part first, and its value. -/
  | assign (path : List String) (key : String) (value : Item)
  | table (path : List String) (key : String)
  | element (path : List String) (key : String)

namespace Entries

/-- Stores an item in place of the one with the same key, or at the end. -/
def put (key : String) (item : Item) : Entries → Entries
  | [] => [(key, item)]
  | (k, i) :: rest => if k = key then (key, item) :: rest else (k, i) :: put key item rest

/-- Changes the table at the end of a path. Missing tables are made on the way; the last element of
an array of tables stands for the array. A dotted key does not go through tables with a header. -/
def change (isDotted : Bool) (last : Origin → Entries → Option Entries) :
    (path : List String) → Origin → Entries → Option Entries
  | [], origin, entries => last origin entries
  | key :: path, _, entries =>
    match entries.lookup key with
    | none => do
      let origin := if isDotted then Origin.dotted else Origin.implied
      let inner ← change isDotted last path origin []
      return put key (.table origin inner) entries
    | some (.table origin inner) =>
      if isDotted && origin == .header then none
      else do
        let inner ← change isDotted last path origin inner
        return put key (.table origin inner) entries
    | some (.tables elements) => do
      let inner ← change isDotted last path .header (elements.getLast?.getD [])
      return put key (.tables (elements.dropLast ++ [inner])) entries
    | some _ => none

/-- Assigns a value below a table. A key without a path goes into a table with a header, and one
with a path into tables of dotted keys. -/
def assign (path : List String) (key : String) (value : Item) : Origin → Entries → Option Entries :=
  change true (fun origin entries =>
    if (origin == .dotted) == path.isEmpty then none
    else if (entries.lookup key).isSome then none
    else some (put key value entries)) path

/-- Opens a table. Only a table that was part of a header's path may be opened later. -/
def openTable (path : List String) (key : String) : Entries → Option Entries :=
  change false (fun _ entries =>
    match entries.lookup key with
    | none => some (put key (.table .header []) entries)
    | some (.table .implied inner) => some (put key (.table .header inner) entries)
    | some _ => none) path .header

/-- Adds an element to an array of tables. -/
def openElement (path : List String) (key : String) : Entries → Option Entries :=
  change false (fun _ entries =>
    match entries.lookup key with
    | none => some (put key (.tables [[]]) entries)
    | some (.tables elements) => some (put key (.tables (elements ++ [[]])) entries)
    | some _ => none) path .header

/-- Adds one statement after another; `current` is the path of the open table. -/
def build : (current : List String) → Entries → List Statement → Option Entries
  | _, entries, [] => some entries
  | current, entries, .assign path key value :: rest => do
    let entries ← change false (assign path key value) current .header entries
    build current entries rest
  | _, entries, .table path key :: rest => do
    build (path ++ [key]) (← openTable path key entries) rest
  | _, entries, .element path key :: rest => do
    build (path ++ [key]) (← openElement path key entries) rest

end Entries

end ScriptMachine.Toml
