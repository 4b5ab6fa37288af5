import ScriptMachine.Instruction
import Mathlib.Algebra.GroupWithZero.Nat

/-!
The linear decoding of an instruction stream. A stream that decodes without a defect is a row of
instructions, each of which begins where the one before ends. What an instruction decodes to
depends on the constants only through the number of variables that a closure captures, so a stream
decodes the same way wherever its functions capture the same number.
-/

namespace ScriptMachine

variable {captured captured' : Value → Option Nat} {blob : Blob} {i : Instruction}
  {is : List Instruction} {op : Opcode} {offset target : Nat}

namespace Instruction

/-! One instruction. -/

theorem need_eq_ok {α : Type} {x : Option α} {a : α} : need op x = .ok a ↔ x = some a := by
  cases x with
  | none => exact ⟨nofun, nofun⟩
  | some b => exact ⟨fun h => congrArg some (Except.ok.inj h), fun h => congrArg Except.ok (Option.some.inj h)⟩

theorem bind_eq_ok {ε α β : Type} {x : Except ε α} {f : α → Except ε β} {b : β} :
    x >>= f = .ok b ↔ ∃ a, x = .ok a ∧ f a = .ok b := by
  cases x with
  | error e => exact ⟨nofun, nofun⟩
  | ok a => exact ⟨fun h => ⟨a, rfl, h⟩, fun ⟨_, ha, h⟩ => by cases ha; exact h⟩

/-- An operand as it stands in the stream at an offset, for an operation that captures `count`
variables. -/
inductive Holds (captured : Value → Option Nat) (blob : Blob) (offset : Nat) :
    Layout → Operand → Nat → Prop where
  | none : Holds captured blob offset .none .none 0
  | byte {n : UInt8} (hn : blob.byteAt? (offset + 1) = some n) :
      Holds captured blob offset .byte (.byte n) 0
  | short {n : UInt16} (hn : blob.shortAt? (offset + 1) = some n) :
      Holds captured blob offset .short (.short n) 0
  | const {index : UInt16} (hindex : blob.shortAt? (offset + 1) = some index) :
      Holds captured blob offset .const (.const index) 0
  | jumpForward {n : UInt16} (hn : blob.shortAt? (offset + 1) = some n) :
      Holds captured blob offset .jumpForward
        (.jump n (Int.ofNat (offset + 3) + Int.ofNat n.toNat)) 0
  | jumpBackward {n : UInt16} (hn : blob.shortAt? (offset + 1) = some n) :
      Holds captured blob offset .jumpBackward
        (.jump n (Int.ofNat (offset + 3) - Int.ofNat n.toNat)) 0
  | tryRegion {type handler block : UInt16} (htype : blob.shortAt? (offset + 1) = some type)
      (hhandler : blob.shortAt? (offset + 3) = some handler)
      (hblock : blob.shortAt? (offset + 5) = some block) :
      Holds captured blob offset .tryRegion (.tryRegion type handler block) 0
  | invoke {name : UInt16} {n : UInt8} (hname : blob.shortAt? (offset + 1) = some name)
      (hn : blob.byteAt? (offset + 3) = some n) :
      Holds captured blob offset .invoke (.invoke name n) 0
  | constByte {index : UInt16} {n : UInt8} (hindex : blob.shortAt? (offset + 1) = some index)
      (hn : blob.byteAt? (offset + 3) = some n) :
      Holds captured blob offset .constByte (.constByte index n) 0
  | closure {function : UInt16} {v : Value} {count : Nat} {captures : List Capture}
      (hfunction : blob.shortAt? (offset + 1) = some function)
      (hv : blob.constant? function = some v) (hcount : captured v = some count) :
      Holds captured blob offset .closure (.closure function captures) count

theorem holds_of_readOperand {operand : Operand} {count : Nat}
    (h : readOperand captured blob op offset = .ok (operand, count)) :
    Holds captured blob offset op.layout operand count := by
  unfold readOperand at h
  dsimp only at h
  cases hlayout : op.layout with
  | none =>
    rw [hlayout] at h
    obtain ⟨rfl, rfl⟩ := Prod.mk.inj (Except.ok.inj h)
    exact .none
  | byte =>
    rw [hlayout] at h
    obtain ⟨n, hn, h⟩ := bind_eq_ok.1 h
    obtain ⟨rfl, rfl⟩ := Prod.mk.inj (Except.ok.inj h)
    exact .byte (need_eq_ok.1 hn)
  | short =>
    rw [hlayout] at h
    obtain ⟨n, hn, h⟩ := bind_eq_ok.1 h
    obtain ⟨rfl, rfl⟩ := Prod.mk.inj (Except.ok.inj h)
    exact .short (need_eq_ok.1 hn)
  | const =>
    rw [hlayout] at h
    obtain ⟨n, hn, h⟩ := bind_eq_ok.1 h
    obtain ⟨rfl, rfl⟩ := Prod.mk.inj (Except.ok.inj h)
    exact .const (need_eq_ok.1 hn)
  | jumpForward =>
    rw [hlayout] at h
    obtain ⟨n, hn, h⟩ := bind_eq_ok.1 h
    obtain ⟨rfl, rfl⟩ := Prod.mk.inj (Except.ok.inj h)
    exact .jumpForward (need_eq_ok.1 hn)
  | jumpBackward =>
    rw [hlayout] at h
    obtain ⟨n, hn, h⟩ := bind_eq_ok.1 h
    obtain ⟨rfl, rfl⟩ := Prod.mk.inj (Except.ok.inj h)
    exact .jumpBackward (need_eq_ok.1 hn)
  | tryRegion =>
    rw [hlayout] at h
    obtain ⟨type, htype, h⟩ := bind_eq_ok.1 h
    obtain ⟨handler, hhandler, h⟩ := bind_eq_ok.1 h
    obtain ⟨block, hblock, h⟩ := bind_eq_ok.1 h
    obtain ⟨rfl, rfl⟩ := Prod.mk.inj (Except.ok.inj h)
    exact .tryRegion (need_eq_ok.1 htype) (need_eq_ok.1 hhandler) (need_eq_ok.1 hblock)
  | invoke =>
    rw [hlayout] at h
    obtain ⟨name, hname, h⟩ := bind_eq_ok.1 h
    obtain ⟨n, hn, h⟩ := bind_eq_ok.1 h
    obtain ⟨rfl, rfl⟩ := Prod.mk.inj (Except.ok.inj h)
    exact .invoke (need_eq_ok.1 hname) (need_eq_ok.1 hn)
  | constByte =>
    rw [hlayout] at h
    obtain ⟨index, hindex, h⟩ := bind_eq_ok.1 h
    obtain ⟨n, hn, h⟩ := bind_eq_ok.1 h
    obtain ⟨rfl, rfl⟩ := Prod.mk.inj (Except.ok.inj h)
    exact .constByte (need_eq_ok.1 hindex) (need_eq_ok.1 hn)
  | closure =>
    rw [hlayout] at h
    obtain ⟨function, hfunction, h⟩ := bind_eq_ok.1 h
    cases hcount : (blob.constant? function).bind captured with
    | none =>
      rw [hcount] at h
      cases h
    | some n =>
      rw [hcount] at h
      obtain ⟨captures, -, h⟩ := bind_eq_ok.1 h
      obtain ⟨rfl, rfl⟩ := Prod.mk.inj (Except.ok.inj h)
      obtain ⟨v, hv, hn⟩ := Option.bind_eq_some_iff.1 hcount
      exact .closure (need_eq_ok.1 hfunction) hv hn

/-- An operand that stands in the stream is read, unless it has captures. -/
theorem readOperand_of_holds {layout : Layout} {operand : Operand} {count : Nat}
    (h : Holds captured blob offset layout operand count) (hlayout : op.layout = layout)
    (hother : layout ≠ .closure) : readOperand captured blob op offset = .ok (operand, count) := by
  unfold readOperand
  rw [hlayout]
  cases h with
  | none => rfl
  | byte hn | short hn | jumpForward hn | jumpBackward hn =>
    exact bind_eq_ok.2 ⟨_, need_eq_ok.2 hn, rfl⟩
  | const hindex => exact bind_eq_ok.2 ⟨_, need_eq_ok.2 hindex, rfl⟩
  | tryRegion htype hhandler hblock =>
    refine bind_eq_ok.2 ⟨_, need_eq_ok.2 htype, bind_eq_ok.2 ⟨_, need_eq_ok.2 hhandler, ?_⟩⟩
    exact bind_eq_ok.2 ⟨_, need_eq_ok.2 hblock, rfl⟩
  | invoke hname hn =>
    exact bind_eq_ok.2 ⟨_, need_eq_ok.2 hname, bind_eq_ok.2 ⟨_, need_eq_ok.2 hn, rfl⟩⟩
  | constByte hindex hn =>
    exact bind_eq_ok.2 ⟨_, need_eq_ok.2 hindex, bind_eq_ok.2 ⟨_, need_eq_ok.2 hn, rfl⟩⟩
  | closure => exact absurd rfl hother

theorem decode_of_readOperand {operand : Operand} {count : Nat}
    (hop : blob.byteAt? offset = some op.toByte)
    (hread : readOperand captured blob op offset = .ok (operand, count))
    (hfits : offset + op.layout.width count ≤ blob.size) :
    decode captured blob offset = .ok ⟨offset, op, operand, op.layout.width count⟩ := by
  unfold decode
  simp only [hop, Opcode.ofByte?_toByte]
  exact bind_eq_ok.2 ⟨_, hread, if_pos hfits⟩

/-- An instruction that was decoded from a stream. -/
structure Decoded (captured : Value → Option Nat) (blob : Blob) (i : Instruction) : Prop where
  op : (blob.byteAt? i.offset).bind Opcode.ofByte? = some i.op
  operand : ∃ count, Holds captured blob i.offset i.op.layout i.operand count ∧
    i.width = i.op.layout.width count
  fits : i.next ≤ blob.size

theorem decoded_of_decode (h : decode captured blob offset = .ok i) :
    i.offset = offset ∧ Decoded captured blob i := by
  unfold decode at h
  cases hbyte : blob.byteAt? offset with
  | none =>
    rw [hbyte] at h
    cases h
  | some byte =>
    rw [hbyte] at h
    dsimp only at h
    cases hop : Opcode.ofByte? byte with
    | none =>
      rw [hop] at h
      cases h
    | some op =>
      rw [hop] at h
      obtain ⟨⟨operand, count⟩, hread, h⟩ := bind_eq_ok.1 h
      dsimp only at h
      split at h
      · rename_i hfits
        obtain rfl := Except.ok.inj h
        refine ⟨rfl, ?_, ⟨count, holds_of_readOperand hread, rfl⟩, hfits⟩
        show (blob.byteAt? offset).bind Opcode.ofByte? = some op
        rw [hbyte]
        exact hop
      · cases h

theorem Decoded.holds (h : Decoded captured blob i) {layout : Layout} (hlayout : i.op.layout = layout) :
    ∃ count, Holds captured blob i.offset layout i.operand count ∧ i.width = layout.width count :=
  hlayout ▸ h.operand

/-- But for what a closure captures, an operand is what stands in the stream. -/
theorem Holds.operand_eq {layout : Layout} {operand operand' : Operand} {count count' : Nat}
    (h : Holds captured blob offset layout operand count)
    (h' : Holds captured blob offset layout operand' count') (hlayout : layout ≠ .closure) :
    operand = operand' := by
  cases h with
  | none =>
    cases h' with
    | none => rfl
  | byte hn =>
    cases h' with
    | byte hn' => rw [Option.some.inj (hn.symm.trans hn')]
  | short hn =>
    cases h' with
    | short hn' => rw [Option.some.inj (hn.symm.trans hn')]
  | const hindex =>
    cases h' with
    | const hindex' => rw [Option.some.inj (hindex.symm.trans hindex')]
  | jumpForward hn =>
    cases h' with
    | jumpForward hn' => rw [Option.some.inj (hn.symm.trans hn')]
  | jumpBackward hn =>
    cases h' with
    | jumpBackward hn' => rw [Option.some.inj (hn.symm.trans hn')]
  | tryRegion htype hhandler hblock =>
    cases h' with
    | tryRegion htype' hhandler' hblock' =>
      rw [Option.some.inj (htype.symm.trans htype'), Option.some.inj (hhandler.symm.trans hhandler'),
        Option.some.inj (hblock.symm.trans hblock')]
  | invoke hname hn =>
    cases h' with
    | invoke hname' hn' =>
      rw [Option.some.inj (hname.symm.trans hname'), Option.some.inj (hn.symm.trans hn')]
  | constByte hindex hn =>
    cases h' with
    | constByte hindex' hn' =>
      rw [Option.some.inj (hindex.symm.trans hindex'), Option.some.inj (hn.symm.trans hn')]
  | closure => exact absurd rfl hlayout

theorem Decoded.operand_eq (h : Decoded captured blob i) {layout : Layout} {operand : Operand}
    {count : Nat} (hlayout : i.op.layout = layout) (hother : layout ≠ .closure)
    (hholds : Holds captured blob i.offset layout operand count) : i.operand = operand := by
  obtain ⟨_, hown, -⟩ := h.holds hlayout
  exact hown.operand_eq hholds hother

/-- Only closures capture. -/
theorem Decoded.width_eq (h : Decoded captured blob i) (hlayout : i.op.layout ≠ .closure) :
    i.width = i.op.layout.width 0 := by
  obtain ⟨count, hholds, hwidth⟩ := h.operand
  generalize i.op.layout = layout at hlayout hholds hwidth
  generalize i.operand = operand at hholds
  cases hholds with
  | closure => exact absurd rfl hlayout
  | _ => exact hwidth

theorem length_readCaptures {count : Nat} {captures : List Capture}
    (h : readCaptures blob op count offset = .ok captures) :
    captures.length = count := by
  induction count generalizing offset captures with
  | zero =>
    obtain rfl := Except.ok.inj h
    rfl
  | succ count ih =>
    obtain ⟨c, -, h⟩ := bind_eq_ok.1 h
    obtain ⟨later, hlater, h⟩ := bind_eq_ok.1 h
    obtain rfl := Except.ok.inj h
    rw [List.length_cons, ih hlater]

/-- What a decoded closure captures. -/
theorem captures_of_decode (h : decode captured blob offset = .ok i)
    (hlayout : i.op.layout = .closure) :
    ∃ function captures v count, i.operand = .closure function captures ∧
      blob.shortAt? (offset + 1) = some function ∧ blob.constant? function = some v ∧
      captured v = some count ∧ readCaptures blob i.op count (offset + 3) = .ok captures ∧
      i.width = 3 + 3 * captures.length := by
  unfold decode at h
  cases hbyte : blob.byteAt? offset with
  | none =>
    rw [hbyte] at h
    cases h
  | some byte =>
    rw [hbyte] at h
    dsimp only at h
    cases hop : Opcode.ofByte? byte with
    | none =>
      rw [hop] at h
      cases h
    | some op =>
      rw [hop] at h
      obtain ⟨⟨operand, count⟩, hread, h⟩ := bind_eq_ok.1 h
      dsimp only at h
      split at h
      · obtain rfl := Except.ok.inj h
        have hclosure : op.layout = .closure := hlayout
        unfold readOperand at hread
        dsimp only at hread
        rw [hclosure] at hread
        obtain ⟨function, hfunction, hread⟩ := bind_eq_ok.1 hread
        cases hcount : (blob.constant? function).bind captured with
        | none =>
          rw [hcount] at hread
          cases hread
        | some n =>
          rw [hcount] at hread
          obtain ⟨captures, hcaptures, hread⟩ := bind_eq_ok.1 hread
          obtain ⟨rfl, rfl⟩ := Prod.mk.inj (Except.ok.inj hread)
          obtain ⟨v, hv, hn⟩ := Option.bind_eq_some_iff.1 hcount
          refine ⟨function, captures, v, n, rfl, need_eq_ok.1 hfunction, hv, hn, hcaptures, ?_⟩
          show op.layout.width n = _
          rw [hclosure, length_readCaptures hcaptures]
          rfl
      · cases h

theorem Decoded.width_pos (h : Decoded captured blob i) : 1 ≤ i.width := by
  obtain ⟨count, -, hwidth⟩ := h.operand
  rw [hwidth]
  cases i.op.layout <;> simp only [Layout.width] <;> omega

/-- All constants capture as many variables as before, as far as they are functions. -/
def Agrees (blob : Blob) (captured captured' : Value → Option Nat) : Prop :=
  ∀ v ∈ blob.constants, ∀ n, captured v = some n → captured' v = some n

theorem readOperand_of_agrees {operand : Operand} {count : Nat}
    (hagrees : Agrees blob captured captured')
    (h : readOperand captured blob op offset = .ok (operand, count)) :
    readOperand captured' blob op offset = .ok (operand, count) := by
  unfold readOperand at h ⊢
  cases hlayout : op.layout with
  | closure =>
    rw [hlayout] at h
    obtain ⟨function, hfunction, h⟩ := bind_eq_ok.1 h
    refine bind_eq_ok.2 ⟨function, hfunction, ?_⟩
    cases hcount : (blob.constant? function).bind captured with
    | none =>
      rw [hcount] at h
      cases h
    | some n =>
      rw [hcount] at h
      obtain ⟨v, hv, hn⟩ := Option.bind_eq_some_iff.1 hcount
      have hmem : v ∈ blob.constants := Array.mem_of_getElem? hv
      rw [hv, Option.bind_some, hagrees v hmem n hn]
      exact h
  | _ =>
    rw [hlayout] at h
    exact h

theorem decode_of_agrees (hagrees : Agrees blob captured captured')
    (h : decode captured blob offset = .ok i) : decode captured' blob offset = .ok i := by
  unfold decode at h ⊢
  cases hbyte : blob.byteAt? offset with
  | none =>
    rw [hbyte] at h
    cases h
  | some byte =>
    rw [hbyte] at h
    dsimp only at h ⊢
    cases hop : Opcode.ofByte? byte with
    | none =>
      rw [hop] at h
      cases h
    | some op =>
      rw [hop] at h
      obtain ⟨⟨operand, count⟩, hread, h⟩ := bind_eq_ok.1 h
      exact bind_eq_ok.2 ⟨_, readOperand_of_agrees hagrees hread, h⟩

/-! Whole streams. -/

/-- The instructions of a stream from an offset on, which decode without a defect. -/
inductive Streams (captured : Value → Option Nat) (blob : Blob) : Nat → List Instruction → Prop where
  | done {offset : Nat} (hend : offset = blob.size) : Streams captured blob offset []
  | next {i : Instruction} {rest : List Instruction} (hdecode : decode captured blob i.offset = .ok i)
      (hrest : Streams captured blob i.next rest) : Streams captured blob i.offset (i :: rest)

/-- A decoding without a defect gives the instructions of the stream. -/
theorem streams_of_decodeFrom {fuel : Nat} {done all : Array Instruction}
    (hoffset : offset ≤ blob.size) (hfuel : blob.size ≤ offset + fuel)
    (h : decodeFrom captured blob fuel offset done = ⟨all, none⟩) :
    ∃ is, all.toList = done.toList ++ is ∧ Streams captured blob offset is := by
  induction fuel generalizing offset done with
  | zero =>
    obtain ⟨rfl, -⟩ := Decoding.mk.inj h
    exact ⟨[], by rw [List.append_nil], .done (by omega)⟩
  | succ fuel ih =>
    unfold decodeFrom at h
    by_cases hend : blob.size ≤ offset
    · rw [if_pos hend] at h
      obtain ⟨rfl, -⟩ := Decoding.mk.inj h
      exact ⟨[], by rw [List.append_nil], .done (by omega)⟩
    · rw [if_neg hend] at h
      cases hdecode : decode captured blob offset with
      | error defect =>
        rw [hdecode] at h
        obtain ⟨-, hnone⟩ := Decoding.mk.inj h
        cases hnone
      | ok i =>
        rw [hdecode] at h
        obtain ⟨rfl, hdecoded⟩ := decoded_of_decode hdecode
        have hwidth := hdecoded.width_pos
        have hfits := hdecoded.fits
        unfold next at hfits
        obtain ⟨is, hall, hstreams⟩ := ih hdecoded.fits (by unfold next; omega) h
        refine ⟨i :: is, ?_, .next hdecode hstreams⟩
        rw [hall, Array.toList_push, List.append_assoc, List.singleton_append]

theorem decodeFrom_of_streams {fuel : Nat} {done : Array Instruction}
    (hfuel : blob.size ≤ offset + fuel) (h : Streams captured blob offset is) :
    decodeFrom captured blob fuel offset done = ⟨done ++ is.toArray, none⟩ := by
  induction h generalizing fuel done with
  | done hend =>
    cases fuel with
    | zero => simp [decodeFrom]
    | succ fuel => simp [decodeFrom, hend]
  | @next i rest hdecode hrest ih =>
    obtain ⟨-, hdecoded⟩ := decoded_of_decode hdecode
    have hwidth := hdecoded.width_pos
    have hfits := hdecoded.fits
    unfold next at hfits
    cases fuel with
    | zero => omega
    | succ fuel =>
      unfold decodeFrom
      rw [if_neg (by omega), hdecode]
      dsimp only
      rw [ih (by unfold next; omega)]
      simp

theorem decodeAll_eq_iff :
    decodeAll captured blob = ⟨is.toArray, none⟩ ↔ Streams captured blob 0 is := by
  unfold decodeAll
  constructor
  · intro h
    obtain ⟨is', hall, hstreams⟩ := streams_of_decodeFrom (Nat.zero_le _) (by omega) h
    rw [List.nil_append] at hall
    rwa [← hall] at hstreams
  · intro h
    rw [decodeFrom_of_streams (by omega) h, Array.empty_append]

/-- An offset is the start of an instruction or the end of the stream. -/
def Lands (blob : Blob) (is : List Instruction) (target : Nat) : Prop :=
  target = blob.size ∨ ∃ i ∈ is, i.offset = target

theorem Lands.cons (h : Lands blob is target) (i : Instruction) : Lands blob (i :: is) target :=
  h.imp_right fun ⟨j, hj, heq⟩ => ⟨j, List.mem_cons_of_mem i hj, heq⟩

namespace Streams

theorem agrees (hagrees : Agrees blob captured captured') (h : Streams captured blob offset is) :
    Streams captured' blob offset is := by
  induction h with
  | done hend => exact .done hend
  | next hdecode _ ih => exact .next (decode_of_agrees hagrees hdecode) ih

theorem decode_eq (h : Streams captured blob offset is) (hi : i ∈ is) :
    decode captured blob i.offset = .ok i := by
  induction h with
  | done => cases hi
  | next hdecode _ ih =>
    rcases List.mem_cons.1 hi with rfl | hmem
    · exact hdecode
    · exact ih hmem

theorem decoded (h : Streams captured blob offset is) (hi : i ∈ is) :
    Decoded captured blob i := by
  induction h with
  | done => cases hi
  | next hdecode _ ih =>
    rcases List.mem_cons.1 hi with rfl | hmem
    · exact (decoded_of_decode hdecode).2
    · exact ih hmem

/-- The first instruction begins at the offset, if there is one. -/
theorem lands (h : Streams captured blob offset is) : Lands blob is offset := by
  cases h with
  | done hend => exact Or.inl hend
  | next => exact Or.inr ⟨_, List.mem_cons_self, rfl⟩

/-- Behind an instruction another one begins, or the stream ends. -/
theorem lands_next (h : Streams captured blob offset is) (hi : i ∈ is) : Lands blob is i.next := by
  induction h with
  | done => cases hi
  | next _ hrest ih =>
    rcases List.mem_cons.1 hi with rfl | hmem
    · exact hrest.lands.cons _
    · exact (ih hmem).cons _

/-- An instruction begins behind the widths of those before it. -/
theorem offset_eq {before after : List Instruction} {i : Instruction}
    (h : Streams captured blob offset is) (his : is = before ++ i :: after) :
    i.offset = offset + (before.map width).sum := by
  induction before generalizing offset is with
  | nil =>
    subst his
    cases h
    rfl
  | cons j before ih =>
    subst his
    cases h with
    | next _ hrest =>
      rw [ih hrest rfl, List.map_cons, List.sum_cons, Instruction.next]
      omega

theorem sum_width (h : Streams captured blob offset is) :
    offset + (is.map width).sum = blob.size := by
  induction h with
  | done hend => exact hend
  | @next i rest _ _ ih =>
    rw [List.map_cons, List.sum_cons, ← ih, Instruction.next]
    omega

end Streams

end Instruction

end ScriptMachine
