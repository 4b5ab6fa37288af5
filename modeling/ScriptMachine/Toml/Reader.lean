import ScriptMachine.Toml.Scalar

/-!
Reading TOML documents. A reader takes characters from the front of the text and fails without a
result; a document that cannot be read has no other meaning.
-/

namespace ScriptMachine.Toml

/-- Takes characters from the front. -/
abbrev Reader := StateT (List Char) Option

namespace Reader

/-- The next character, which stays. -/
def peek? : Reader (Option Char) := return (← get).head?

/-- Takes one given character. -/
def expect (c : Char) : Reader Unit := do
  match ← get with
  | d :: rest => if d = c then set rest else failure
  | [] => failure

/-- Takes the longest run of characters of a class. -/
def takeWhile (p : Char → Bool) : Reader (List Char) :=
  modifyGet fun cs => (cs.takeWhile p, cs.dropWhile p)

def isSpace (c : Char) : Bool := c == ' ' || c == '\t'

def skipSpaces : Reader Unit := do let _ ← takeWhile isSpace

/-- Characters of comments: everything but control characters, tab excepted. -/
def isCommentChar (c : Char) : Bool := c == '\t' || (32 ≤ c.toNat && c.toNat != 127)

/-- Takes a comment if there is one. -/
def skipComment : Reader Unit := do
  if (← peek?) == some '#' then let _ ← takeWhile isCommentChar

/-- Takes a line break if there is one, and says whether it did. -/
def takeNewline : Reader Bool := do
  match ← get with
  | '\n' :: rest => set rest; return true
  | '\r' :: '\n' :: rest => set rest; return true
  | _ => return false

/-- The end of a line: spaces, a comment, and a line break or the end of the text. -/
def endOfLine : Reader Unit := do
  skipSpaces
  skipComment
  if (← get).isEmpty then return
  if !(← takeNewline) then failure

/-- Takes spaces, comments and line breaks. -/
def skipFiller : (fuel : Nat) → Reader Unit
  | 0 => failure
  | fuel + 1 => do
    skipSpaces
    skipComment
    if ← takeNewline then skipFiller fuel

/-! Texts. -/

/-- The character with a hexadecimal code point. -/
def codePoint? (digits : List Char) (width : Nat) : Option Char :=
  let n := numberOf 16 digits
  if digits.length = width ∧ digits.all isHexDigit ∧ n.isValidChar then some (Char.ofNat n)
  else none

/-- What follows a backslash in a text. -/
def escape : Reader Char := do
  match ← get with
  | 'b' :: rest => set rest; return '\x08'
  | 't' :: rest => set rest; return '\t'
  | 'n' :: rest => set rest; return '\n'
  | 'f' :: rest => set rest; return '\x0c'
  | 'r' :: rest => set rest; return '\r'
  | '"' :: rest => set rest; return '"'
  | '\\' :: rest => set rest; return '\\'
  | 'u' :: rest => set (rest.drop 4); (codePoint? (rest.take 4) 4 : Option Char)
  | 'U' :: rest => set (rest.drop 8); (codePoint? (rest.take 8) 8 : Option Char)
  | _ => failure

/-- The rest of a text between double quotes. -/
def basicRest : (fuel : Nat) → (done : List Char) → Reader String
  | 0, _ => failure
  | fuel + 1, done => do
    match ← get with
    | '"' :: rest => set rest; return String.ofList done.reverse
    | '\\' :: rest => set rest; basicRest fuel ((← escape) :: done)
    | c :: rest => if isCommentChar c then do set rest; basicRest fuel (c :: done) else failure
    | [] => failure

/-- The rest of a text between single quotes. -/
def literalRest : Reader String := do
  let cs ← takeWhile fun c => isCommentChar c && c != '\''
  expect '\''
  return String.ofList cs

/-- After a backslash at the end of a line: spaces and at least one line break. -/
def skipLineEnd (fuel : Nat) : Reader Unit := do
  skipSpaces
  if !(← takeNewline) then failure
  let rec more : Nat → Reader Unit
    | 0 => return
    | n + 1 => do
      skipSpaces
      if ← takeNewline then more n
  more fuel

/-- The rest of a text of several lines up to three closing quotes. Its contents are not kept. -/
def longRest (quote : Char) (escapes : Bool) : (fuel : Nat) → Reader Unit
  | 0 => failure
  | fuel + 1 => do
    let cs ← get
    let quotes := (cs.takeWhile (· == quote)).length
    if 3 ≤ quotes then set (cs.drop (min quotes 5))
    else if 0 < quotes then do
      set (cs.drop quotes)
      longRest quote escapes fuel
    else
      match cs with
      | '\\' :: rest =>
        set rest
        if escapes then
          if (rest.head?.any fun c => isSpace c || c == '\n' || c == '\r') then skipLineEnd fuel
          else let _ ← escape
        longRest quote escapes fuel
      | c :: rest =>
        if isCommentChar c then do
          set rest
          longRest quote escapes fuel
        else if ← takeNewline then longRest quote escapes fuel
        else failure
      | [] => failure

/-! Keys. -/

def isBareChar (c : Char) : Bool := c.isAlphanum || c == '_' || c == '-'

/-- One part of a key. -/
def simpleKey (fuel : Nat) : Reader String := do
  match ← get with
  | '"' :: rest => set rest; basicRest fuel []
  | '\'' :: rest => set rest; literalRest
  | _ =>
    let cs ← takeWhile isBareChar
    if cs.isEmpty then failure
    return String.ofList cs

/-- A dotted key: all parts but the last, and the last. -/
def key (bound : Nat) : (fuel : Nat) → Reader (List String × String)
  | 0 => failure
  | fuel + 1 => do
    skipSpaces
    let first ← simpleKey bound
    skipSpaces
    if (← peek?) == some '.' then
      expect '.'
      let (path, last) ← key bound fuel
      return (first :: path, last)
    return ([], first)

/-! Values. -/

/-- A word; a date may go on with a space and a time. -/
def word : Reader Item := do
  let first ← takeWhile isWordChar
  let rest ← get
  match rest with
  | ' ' :: d :: _ =>
    if isDate first && d.isDigit then
      set (rest.drop 1)
      let time ← takeWhile isWordChar
      if isZonedTime time then return .other else failure
    else (scalar? first : Option Item)
  | _ => (scalar? first : Option Item)

mutual

/-- A value. -/
def value : (fuel : Nat) → Reader Item
  | 0 => failure
  | fuel + 1 => do
    match ← get with
    | '"' :: '"' :: '"' :: rest => set rest; longRest '"' true fuel; return .other
    | '"' :: rest => set rest; let _ ← basicRest fuel []; return .other
    | '\'' :: '\'' :: '\'' :: rest => set rest; longRest '\'' false fuel; return .other
    | '\'' :: rest => set rest; let _ ← literalRest; return .other
    | '[' :: rest => set rest; elements fuel; return .other
    | '\x7b' :: rest =>
      set rest
      skipSpaces
      if (← peek?) == some '\x7d' then expect '\x7d' else members fuel []
      return .other
    | _ => word

/-- The rest of an array. -/
def elements : (fuel : Nat) → Reader Unit
  | 0 => failure
  | fuel + 1 => do
    skipFiller (fuel + 1)
    if (← peek?) == some ']' then expect ']'
    else
      let _ ← value fuel
      skipFiller (fuel + 1)
      if (← peek?) == some ',' then
        expect ','
        elements fuel
      else expect ']'

/-- The rest of a table on one line, after the members read so far. -/
def members : (fuel : Nat) → Entries → Reader Unit
  | 0, _ => failure
  | fuel + 1, entries => do
    let (path, last) ← key fuel fuel
    expect '='
    skipSpaces
    let item ← value fuel
    skipSpaces
    match Entries.assign path last item .header entries with
    | none => failure
    | some entries =>
      if (← peek?) == some ',' then
        expect ','
        members fuel entries
      else expect '\x7d'

end

/-! Statements. -/

/-- A table header after its first bracket. -/
def header (fuel : Nat) : Reader Statement := do
  match ← get with
  | '[' :: rest =>
    set rest
    let (path, last) ← key fuel fuel
    expect ']'
    expect ']'
    endOfLine
    return .element path last
  | _ =>
    let (path, last) ← key fuel fuel
    expect ']'
    endOfLine
    return .table path last

def assignment (fuel : Nat) : Reader Statement := do
  let (path, last) ← key fuel fuel
  expect '='
  skipSpaces
  let item ← value fuel
  endOfLine
  return .assign path last item

/-- All statements to the end of the text. -/
def statements (bound : Nat) : (fuel : Nat) → (done : List Statement) → Reader (List Statement)
  | 0, _ => failure
  | fuel + 1, done => do
    skipSpaces
    match ← get with
    | [] => return done.reverse
    | '[' :: rest => set rest; statements bound fuel ((← header bound) :: done)
    | c :: _ =>
      if c == '#' || c == '\n' || c == '\r' then do
        endOfLine
        statements bound fuel done
      else statements bound fuel ((← assignment bound) :: done)

end Reader

/-- Reads a document. A byte order mark at its start is passed over. -/
def parse? (text : String) : Option Entries := do
  let cs := text.toList
  let cs := if cs.head? == some '\ufeff' then cs.drop 1 else cs
  let bound := cs.length + 2
  let (found, _) ← Reader.statements bound bound [] cs
  Entries.build [] [] found

end ScriptMachine.Toml
