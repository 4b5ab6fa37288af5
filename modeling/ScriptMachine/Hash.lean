/-!
The two hash functions of the machine's tables: a mixer for 64-bit patterns and a byte-wise
hash for texts. All arithmetic wraps at the width of the word.
-/

namespace ScriptMachine.Hash

/-- Mixes 64 bits down to the low 30. -/
def mix (bits : UInt64) : UInt32 :=
  let h := ~~~bits + (bits <<< 18)
  let h := h ^^^ (h >>> 31)
  let h := h * 21
  let h := h ^^^ (h >>> 11)
  let h := h + (h <<< 6)
  let h := h ^^^ (h >>> 22)
  (h &&& 0x3fffffff).toUInt32

/-- A number hashes by its bits, and both zeros hash alike. -/
def number (x : Float) : UInt32 :=
  mix (if x == 0 then 0 else x.toBits)

/-- One byte of a text: exclusive or, then a multiplication. -/
def textStep (h : UInt32) (byte : UInt8) : UInt32 :=
  (h ^^^ byte.toUInt32) * 16777619

/-- A text hashes by its UTF-8 bytes. -/
def text (s : String) : UInt32 :=
  s.toUTF8.foldl textStep 2166136261

end ScriptMachine.Hash
