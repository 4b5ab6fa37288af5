import ScriptMachine.Text.Printable

/-!
Quoted text: double quotes around the characters, a backslash before a quote and a backslash,
short escapes for tab, carriage return, line feed and the null character, and the code point in
braces for every other character that is not plain.
-/

namespace ScriptMachine.Quoted

/-- The code point of a character in lower-case hexadecimal between braces. -/
def codePoint (c : Char) : List Char :=
  '\\' :: 'u' :: '\x7b' :: Nat.toDigits 16 c.toNat ++ ['\x7d']

def encodeChar (c : Char) : List Char :=
  match c with
  | '"' => ['\\', '"']
  | '\\' => ['\\', '\\']
  | '\t' => ['\\', 't']
  | '\r' => ['\\', 'r']
  | '\n' => ['\\', 'n']
  | '\x00' => ['\\', '0']
  | c => if Printable.isPlain c then [c] else codePoint c

/-- A text between double quotes. -/
def quote (text : String) : String :=
  String.ofList ('"' :: text.toList.flatMap encodeChar ++ ['"'])

end ScriptMachine.Quoted
