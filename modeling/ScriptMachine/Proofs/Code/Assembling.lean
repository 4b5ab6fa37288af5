import ScriptMachine.Proofs.Code.Decoding

/-!
Decoding what was assembled. A blob is the work of a sequence of edits: most of them append an
instruction, some add a constant, and patches rewrite an operand that was appended before. Every
patch rewrites only the two bytes that its label stands for, so each instruction decodes to the
operands it was given, with the addresses that were patched in last.
-/

namespace ScriptMachine

namespace Assembly

/-- One use of an assembly. -/
inductive Edit where
  | atLine (line : Nat)
  | constant (v : Value)
  | op (o : Opcode)
  | opByte (o : Opcode) (b : UInt8)
  | opShort (o : Opcode) (n : UInt16)
  | opConst (o : Opcode) (v : Value)
  | push (v : Value)
  | jump (o : Opcode)
  | patchJump (label : JumpLabel)
  | loopTo (start : Nat)
  | tryRegion (type : UInt16)
  | patchHandler (label : TryLabel)
  | patchFinally (label : TryLabel)
  | invoke (o : Opcode) (name : UInt16) (count : UInt8)
  | closure (function : UInt16) (captures : List Capture)
  | defineProperty (name : UInt16) (isStatic : Bool)
deriving DecidableEq

namespace Edit

def perform (a : Assembly) : Edit → Assembly
  | atLine line => a.atLine line
  | constant v => (a.constant v).2
  | op o => a.op o
  | opByte o b => a.opByte o b
  | opShort o n => a.opShort o n
  | opConst o v => a.opConst o v
  | push v => a.push v
  | jump o => (a.jump o).2
  | patchJump label => a.patchJump label
  | loopTo start => a.loopTo start
  | tryRegion type => (a.tryRegion type).2
  | patchHandler label => a.patchHandler label
  | patchFinally label => a.patchFinally label
  | invoke o name count => a.invoke o name count
  | closure function captures => a.closure function captures
  | defineProperty name isStatic => a.defineProperty name isStatic

/-- The constant that an edit adds. -/
def added? : Edit → Option Value
  | constant v | opConst _ v | push v => some v
  | _ => none

/-- The patches that the label of an edit allows. -/
def allows (a : Assembly) : Edit → List Edit
  | jump o => [patchJump (a.jump o).1]
  | tryRegion type => [patchHandler (a.tryRegion type).1, patchFinally (a.tryRegion type).1]
  | _ => []

/-- An edit suits the layout of its operation, a loop goes back to an offset that was reached, and
a patch is one of those that the labels allow. -/
def Fits (allowed : List Edit) (a : Assembly) : Edit → Prop
  | op o => o.layout = .none
  | opByte o _ => o.layout = .byte
  | opShort o _ => o.layout = .short ∨ o.layout = .const
  | opConst o _ => o.layout = .const
  | jump o => o.layout = .jumpForward
  | invoke o _ _ => o.layout = .invoke
  | loopTo start => start ≤ a.offset
  | patchJump label => patchJump label ∈ allowed
  | patchHandler label => patchHandler label ∈ allowed
  | patchFinally label => patchFinally label ∈ allowed
  | _ => True

end Edit

/-- The assembly after a sequence of edits. -/
def assemble (a : Assembly) (edits : List Edit) : Assembly := edits.foldl Edit.perform a

/-- Every edit fits the assembly that those before it made. -/
def Proper : (allowed : List Edit) → Assembly → List Edit → Prop
  | _, _, [] => True
  | allowed, a, e :: rest => e.Fits allowed a ∧ Proper (e.allows a ++ allowed) (e.perform a) rest

/-- The offset at which an edit is made for the last time. -/
def lastOffset (e : Edit) : Assembly → List Edit → Option Nat
  | _, [] => none
  | a, e' :: rest =>
    (lastOffset e (e'.perform a) rest).or (if e' = e then some a.offset else none)

/-- The instruction that an edit appends, with the addresses that later edits give it. A jump goes
to the offset at which it is patched; the addresses of a try region are zero until then. -/
def Edit.instruction? (a : Assembly) (later : List Edit) (e : Edit) : Option Instruction :=
  let patched (patch : Edit) : Option Nat := lastOffset patch (e.perform a) later
  let made (o : Opcode) (operand : Operand) (captured : Nat) : Option Instruction :=
    some { offset := a.offset, op := o, operand, width := o.layout.width captured }
  match e with
  | op o => made o .none 0
  | opByte o b => made o (.byte b) 0
  | opShort o n => made o (if o.layout = .const then .const n else .short n) 0
  | opConst o v => made o (.const (a.constant v).1) 0
  | push v => made .pushConst (.const (a.constant v).1) 0
  | jump o =>
    let target := (patched (patchJump (a.jump o).1)).getD (a.offset + 3 + 0xffff)
    made o (.jump (UInt16.ofNat (target - (a.offset + 3))) target) 0
  | loopTo start => made .loop (.jump (UInt16.ofNat (a.offset + 3 - start)) start) 0
  | tryRegion type =>
    let label := (a.tryRegion type).1
    let handler := (patched (patchHandler label)).getD 0
    let finallyAt := (patched (patchFinally label)).getD 0
    made .enterTry (.tryRegion type (UInt16.ofNat handler) (UInt16.ofNat finallyAt)) 0
  | invoke o name count => made o (.invoke name count) 0
  | closure function captures =>
    made .makeClosure (.closure function captures) captures.length
  | defineProperty name isStatic =>
    made .defineProperty (.constByte name (if isStatic then 1 else 0)) 0
  | _ => none

/-- The instructions that a sequence of edits appends. -/
def listing : Assembly → List Edit → List Instruction
  | _, [] => []
  | a, e :: rest => (e.instruction? a rest).toList ++ listing (e.perform a) rest

variable {a : Assembly} {b b' b'' : Blob} {e patch : Edit} {edits allowed : List Edit}
  {touched touched' : Nat → Prop} {i slot : Nat} {o : Opcode}

/-! What an edit leaves in place. -/

/-- A blob that grew out of another one, in which only the touched bytes were rewritten. -/
structure Grown (touched : Nat → Prop) (b b' : Blob) : Prop where
  size : b.size ≤ b'.size
  byteAt? : ∀ i < b.size, ¬ touched i → b'.byteAt? i = b.byteAt? i
  constants : ∀ k < b.constants.size, b'.constants[k]? = b.constants[k]?
  room : b.constants.size ≤ b'.constants.size

namespace Grown

theorem refl (b : Blob) : Grown touched b b :=
  ⟨Nat.le_refl _, fun _ _ _ => rfl, fun _ _ => rfl, Nat.le_refl _⟩

/-- What was appended in between may be rewritten at will. -/
theorem extend (h : Grown touched b b') (h' : Grown touched' b' b'')
    (hold : ∀ i < b.size, touched' i → touched i) : Grown touched b b'' where
  size := Nat.le_trans h.size h'.size
  byteAt? i hi hfree :=
    (h'.byteAt? i (Nat.lt_of_lt_of_le hi h.size) (mt (hold i hi) hfree)).trans
      (h.byteAt? i hi hfree)
  constants k hk := (h'.constants k (Nat.lt_of_lt_of_le hk h.room)).trans (h.constants k hk)
  room := Nat.le_trans h.room h'.room

theorem trans (h : Grown touched b b') (h' : Grown touched b' b'') : Grown touched b b'' :=
  h.extend h' fun _ _ hi => hi

theorem mono (h : Grown touched b b') (hmono : ∀ i < b.size, touched i → touched' i) :
    Grown touched' b b' :=
  (refl b).extend h hmono

theorem shortAt? (h : Grown touched b b') (hi : i + 1 < b.size) (hfree : ¬ touched i)
    (hnext : ¬ touched (i + 1)) : b'.shortAt? i = b.shortAt? i := by
  unfold Blob.shortAt?
  rw [h.byteAt? i (by omega) hfree, h.byteAt? (i + 1) hi hnext]

theorem pushByte (b : Blob) (byte : UInt8) (line : Nat) :
    Grown touched b (b.pushByte byte line) where
  size := by rw [Blob.size_pushByte]; omega
  byteAt? i hi _ := by rw [Blob.byteAt?_pushByte, if_neg (by omega)]
  constants _ _ := rfl
  room := Nat.le_refl _

theorem op (a : Assembly) (o : Opcode) : Grown touched a.blob (a.op o).blob := pushByte _ _ _

theorem byte (a : Assembly) (n : UInt8) : Grown touched a.blob (a.byte n).blob := pushByte _ _ _

theorem short (a : Assembly) (n : UInt16) : Grown touched a.blob (a.short n).blob :=
  (pushByte _ _ _).trans (pushByte _ _ _)

theorem opShort (a : Assembly) (o : Opcode) (n : UInt16) :
    Grown touched a.blob (a.opShort o n).blob :=
  (op a o).trans (short _ n)

theorem constant (a : Assembly) (v : Value) : Grown touched a.blob (a.constant v).2.blob where
  size := Nat.le_refl _
  byteAt? _ _ _ := rfl
  constants k hk := by
    show (a.blob.constants.push v)[k]? = _
    rw [Array.getElem?_push, if_neg (by omega)]
  room := by
    show _ ≤ (a.blob.constants.push v).size
    rw [Array.size_push]
    omega

theorem capture (a : Assembly) (c : Capture) : Grown touched a.blob (a.capture c).blob :=
  (byte a _).trans (short _ c.index)

theorem captures (a : Assembly) (cs : List Capture) :
    Grown touched a.blob (cs.foldl Assembly.capture a).blob := by
  induction cs generalizing a with
  | nil => exact refl _
  | cons c cs ih => exact (capture a c).trans (ih (a.capture c))

theorem patchShort (b : Blob) (slot : Nat) (n : UInt16) :
    Grown (fun i => i = slot ∨ i = slot + 1) b (b.patchShort slot n) where
  size := Nat.le_of_eq (Blob.size_patchShort b slot n).symm
  byteAt? i _ hfree := by
    rw [not_or] at hfree
    rw [Blob.patchShort, Blob.byteAt?_patchByte, if_neg (Ne.symm hfree.2), Blob.byteAt?_patchByte,
      if_neg (Ne.symm hfree.1)]
  constants _ _ := rfl
  room := Nat.le_refl _

end Grown

@[simp] theorem offset_op (a : Assembly) (o : Opcode) : (a.op o).offset = a.offset + 1 :=
  Blob.size_pushByte _ _ _

@[simp] theorem offset_byte (a : Assembly) (n : UInt8) : (a.byte n).offset = a.offset + 1 :=
  Blob.size_pushByte _ _ _

@[simp] theorem offset_short (a : Assembly) (n : UInt16) : (a.short n).offset = a.offset + 2 :=
  Blob.size_pushShort _ _ _

@[simp] theorem offset_opByte (a : Assembly) (o : Opcode) (n : UInt8) :
    (a.opByte o n).offset = a.offset + 2 := by
  simp [opByte]

@[simp] theorem offset_opShort (a : Assembly) (o : Opcode) (n : UInt16) :
    (a.opShort o n).offset = a.offset + 3 := by
  simp [opShort]

@[simp] theorem offset_constant (a : Assembly) (v : Value) : (a.constant v).2.offset = a.offset :=
  rfl

@[simp] theorem offset_captures (a : Assembly) (cs : List Capture) :
    (cs.foldl capture a).offset = a.offset + 3 * cs.length := by
  induction cs generalizing a with
  | nil => rfl
  | cons c cs ih =>
    simp [ih, capture, flag]
    omega

/-! What was appended stands in every blob that grows out of it. -/

theorem op_stands (h : Grown touched (a.op o).blob b) (hfree : ¬ touched a.offset) :
    b.byteAt? a.offset = some o.toByte := by
  have hsize := offset_op a o
  rw [h.byteAt? a.offset (by unfold offset at *; omega) hfree]
  exact (Blob.byteAt?_pushByte _ _ _ _).trans (if_pos rfl)

theorem byte_stands {n : UInt8} (h : Grown touched (a.byte n).blob b) (hfree : ¬ touched a.offset) :
    b.byteAt? a.offset = some n := by
  have hsize := offset_byte a n
  rw [h.byteAt? a.offset (by unfold offset at *; omega) hfree]
  exact (Blob.byteAt?_pushByte _ _ _ _).trans (if_pos rfl)

theorem short_stands {n : UInt16} (h : Grown touched (a.short n).blob b)
    (hfree : ¬ touched a.offset) (hnext : ¬ touched (a.offset + 1)) :
    b.shortAt? a.offset = some n := by
  have hsize := offset_short a n
  rw [h.shortAt? (by unfold offset at *; omega) hfree hnext]
  exact Blob.shortAt?_pushShort _ _ _

theorem opShort_stands {n : UInt16} (h : Grown touched (a.opShort o n).blob b)
    (hfree : ∀ i, a.offset ≤ i → i ≤ a.offset + 2 → ¬ touched i) :
    b.byteAt? a.offset = some o.toByte ∧ b.shortAt? (a.offset + 1) = some n := by
  refine ⟨op_stands ((Grown.short _ n).trans h) (hfree _ (by omega) (by omega)), ?_⟩
  rw [← offset_op a o]
  exact short_stands h (hfree _ (by simp) (by simp)) (hfree _ (by simp; omega) (by simp))

theorem captures_stand {cs : List Capture} (h : Grown touched (cs.foldl capture a).blob b)
    (hfree : ∀ i, a.offset ≤ i → ¬ touched i) :
    Instruction.readCaptures b o cs.length a.offset = .ok cs := by
  induction cs generalizing a with
  | nil => rfl
  | cons c cs ih =>
    have hsize : (a.capture c).offset = a.offset + 3 := by simp [capture, flag]
    have hgrown : Grown touched (a.capture c).blob b := (Grown.captures (a.capture c) cs).trans h
    have hflag : b.byteAt? a.offset = some (if c.isLocal then 1 else 0) :=
      byte_stands ((Grown.short (a.flag c.isLocal) c.index).trans hgrown) (hfree _ (Nat.le_refl _))
    have hindex : b.shortAt? (a.offset + 1) = some c.index := by
      rw [← offset_byte a (if c.isLocal then 1 else 0)]
      exact short_stands hgrown (hfree _ (by simp)) (hfree _ (by simp; omega))
    have hrest := ih (a := a.capture c) h fun i hi => hfree i (by omega)
    rw [hsize] at hrest
    refine Instruction.bind_eq_ok.2 ⟨c, ?_, Instruction.bind_eq_ok.2 ⟨cs, hrest, rfl⟩⟩
    refine Instruction.bind_eq_ok.2 ⟨_, Instruction.need_eq_ok.2 hflag, ?_⟩
    refine Instruction.bind_eq_ok.2 ⟨_, Instruction.need_eq_ok.2 hindex, ?_⟩
    cases c with
    | mk isLocal index => cases isLocal <;> rfl

/-! Single edits. -/

namespace Edit

/-- The offset of the number that a patch rewrites. -/
def slot? : Edit → Option Nat
  | patchJump label => some label.operand
  | patchHandler label => some (label.operand + 2)
  | patchFinally label => some (label.operand + 4)
  | _ => none

/-- The number that a patch writes at an offset: a distance for a jump, else the offset. -/
def patchedIn (offset : Nat) : Edit → UInt16
  | patchJump label => UInt16.ofNat (offset - (label.operand + 2))
  | _ => UInt16.ofNat offset

/-- The bytes that an edit rewrites. -/
def Touches (e : Edit) (i : Nat) : Prop := ∃ slot, e.slot? = some slot ∧ (i = slot ∨ i = slot + 1)

theorem perform_of_slot (h : e.slot? = some slot) :
    e.perform a = { a with blob := a.blob.patchShort slot (e.patchedIn a.offset) } := by
  cases e with
  | patchJump | patchHandler | patchFinally =>
    obtain rfl := Option.some.inj h
    rfl
  | _ => cases h

theorem Fits.mem_of_slot (h : e.Fits allowed a) (hslot : e.slot? = some slot) : e ∈ allowed := by
  cases e with
  | patchJump | patchHandler | patchFinally => exact h
  | _ => cases hslot

theorem grown_perform (a : Assembly) (e : Edit) : Grown e.Touches a.blob (e.perform a).blob := by
  cases hslot : e.slot? with
  | some slot =>
    rw [perform_of_slot hslot]
    exact (Grown.patchShort a.blob slot _).mono fun i _ hi => ⟨slot, hslot, hi⟩
  | none =>
    cases e with
    | patchJump | patchHandler | patchFinally => cases hslot
    | atLine => exact .refl _
    | constant v => exact .constant a v
    | op o => exact .op a o
    | opByte o n => exact (Grown.op a o).trans (.byte _ n)
    | opConst o v | push v => exact (Grown.constant a v).trans (.opShort _ _ _)
    | opShort | jump | loopTo => exact .opShort a _ _
    | tryRegion => exact ((Grown.opShort a _ _).trans (.short _ 0)).trans (.short _ 0)
    | invoke | defineProperty => exact (Grown.opShort a _ _).trans (.byte _ _)
    | closure function cs => exact (Grown.opShort a _ _).trans (.captures _ cs)

/-- An assembly grows by the width of the instruction that is appended. -/
theorem offset_perform (hfits : e.Fits allowed a) (later : List Edit) :
    (e.perform a).offset = a.offset + ((e.instruction? a later).elim 0 Instruction.width) := by
  cases e with
  | patchJump | patchHandler | patchFinally => exact Blob.size_patchShort _ _ _
  | atLine | constant => rfl
  | op o | opByte o | opConst o | jump o | invoke o =>
    simp only [Fits] at hfits
    simp [perform, instruction?, Assembly.jump, Assembly.invoke, Assembly.opConst, hfits,
      Layout.width]
  | opShort o n =>
    have hwidth : o.layout.width 0 = 3 := by rcases hfits with h | h <;> rw [h] <;> rfl
    simp [perform, instruction?, hwidth]
  | push | loopTo | tryRegion | defineProperty | closure =>
    simp [perform, instruction?, Assembly.push, Assembly.opConst, Assembly.loopTo, Assembly.tryRegion,
      Assembly.defineProperty, Assembly.closure, flag, Opcode.layout, Layout.width]
    try omega

/-- A label stands for bytes of its own instruction. -/
theorem slot_of_allows {e' : Edit} (h : e' ∈ e.allows a) (hslot : e'.slot? = some slot) :
    a.offset < slot ∧ slot + 2 ≤ (e.perform a).offset := by
  cases e with
  | jump o =>
    obtain rfl := List.mem_singleton.1 h
    obtain rfl := Option.some.inj hslot
    simp [perform, Assembly.jump]
  | tryRegion type =>
    simp only [allows, List.mem_cons, List.not_mem_nil, or_false] at h
    rcases h with rfl | rfl <;>
    · obtain rfl := Option.some.inj hslot
      simp [perform, Assembly.tryRegion]
      try omega
  | _ => cases h

end Edit

/-! Sequences of edits. -/

/-- Every patch is one that a label given before it allows. Nothing is asked of the other edits. -/
def Labelled : (allowed : List Edit) → Assembly → List Edit → Prop
  | _, _, [] => True
  | allowed, a, e :: rest =>
    (∀ slot, e.slot? = some slot → e ∈ allowed) ∧ Labelled (e.allows a ++ allowed) (e.perform a) rest

theorem Proper.labelled (h : Proper allowed a edits) : Labelled allowed a edits := by
  induction edits generalizing a allowed with
  | nil => exact trivial
  | cons e rest ih => exact ⟨fun _ => h.1.mem_of_slot, ih h.2⟩

/-- The bytes that the allowed patches rewrite. -/
def Loose (allowed : List Edit) (i : Nat) : Prop := ∃ e ∈ allowed, e.Touches i

theorem loose_append {i : Nat} {es : List Edit} (h : Loose (es ++ allowed) i) :
    Loose es i ∨ Loose allowed i := by
  obtain ⟨e, hmem, hi⟩ := h
  exact (List.mem_append.1 hmem).imp (fun he => ⟨e, he, hi⟩) fun he => ⟨e, he, hi⟩

theorem Edit.offset_lt_of_loose (h : Loose (e.allows a) i) :
    a.offset < i ∧ i < (e.perform a).offset := by
  obtain ⟨e', hmem, slot, hslot, hi⟩ := h
  have hrange := slot_of_allows hmem hslot
  omega

/-- Only bytes behind labels are ever rewritten. -/
theorem grown_assemble (hlabelled : Labelled allowed a edits) :
    Grown (Loose allowed) a.blob (assemble a edits).blob := by
  induction edits generalizing a allowed with
  | nil => exact .refl _
  | cons e rest ih =>
    obtain ⟨hmem, hrest⟩ := hlabelled
    refine Grown.extend ((e.grown_perform a).mono ?_) (ih hrest) fun i hi hloose => ?_
    · rintro i - ⟨slot, hslot, hi⟩
      exact ⟨e, hmem slot hslot, slot, hslot, hi⟩
    · refine (loose_append hloose).resolve_left fun hown => ?_
      have hrange := e.offset_lt_of_loose hown
      unfold offset at hrange
      omega

theorem grown_assemble_any (a : Assembly) (edits : List Edit) :
    Grown (fun _ => True) a.blob (assemble a edits).blob := by
  induction edits generalizing a with
  | nil => exact .refl _
  | cons e rest ih => exact ((e.grown_perform a).mono fun _ _ _ => trivial).trans (ih _)

theorem offset_le_assemble (a : Assembly) (edits : List Edit) :
    a.offset ≤ (assemble a edits).offset :=
  (grown_assemble_any a edits).size

theorem lastOffset_bounds {t : Nat} (h : lastOffset e a edits = some t) :
    a.offset ≤ t ∧ t ≤ (assemble a edits).offset := by
  induction edits generalizing a with
  | nil => cases h
  | cons e' rest ih =>
    rcases Option.or_eq_some_iff.1 h with hlater | ⟨-, hnow⟩
    · obtain ⟨hlower, hupper⟩ := ih hlater
      exact ⟨Nat.le_trans (e'.grown_perform a).size hlower, hupper⟩
    · split at hnow
      · obtain rfl := Option.some.inj hnow
        exact ⟨Nat.le_refl _, offset_le_assemble a _⟩
      · cases hnow

/-- The number behind a label is the one that was patched in last. -/
theorem shortAt?_assemble (patch : Edit) {n : UInt16} (hlabelled : Labelled allowed a edits)
    (hslot : patch.slot? = some slot) (hsize : slot + 2 ≤ a.offset)
    (hapart : ∀ e ∈ allowed, ∀ s, e.slot? = some s → e = patch ∨ s + 2 ≤ slot ∨ slot + 2 ≤ s)
    (hn : a.blob.shortAt? slot = some n) :
    (assemble a edits).blob.shortAt? slot =
      some (((lastOffset patch a edits).map fun t => patch.patchedIn t).getD n) := by
  induction edits generalizing a allowed n with
  | nil => exact hn
  | cons e rest ih =>
    obtain ⟨hown, hrest⟩ := hlabelled
    have hgrows := (e.grown_perform a).size
    have hapart' : ∀ e' ∈ e.allows a ++ allowed, ∀ s, e'.slot? = some s →
        e' = patch ∨ s + 2 ≤ slot ∨ slot + 2 ≤ s := by
      intro e' hmem s hs
      rcases List.mem_append.1 hmem with hnew | hold
      · have hrange := Edit.slot_of_allows hnew hs
        omega
      · exact hapart e' hold s hs
    have hsize' : slot + 2 ≤ (e.perform a).offset := Nat.le_trans hsize hgrows
    have hlast : lastOffset patch a (e :: rest) = (lastOffset patch (e.perform a) rest).or
        (if e = patch then some a.offset else none) := rfl
    by_cases he : e = patch
    · have hwritten : (e.perform a).blob.shortAt? slot = some (patch.patchedIn a.offset) := by
        rw [he, Edit.perform_of_slot hslot]
        exact Blob.shortAt?_patchShort _ _ _ (by unfold offset at hsize; omega)
      rw [hlast, if_pos he]
      refine (ih hrest hsize' hapart' hwritten).trans ?_
      cases lastOffset patch (e.perform a) rest <;> rfl
    · have hfree : ∀ i, i = slot ∨ i = slot + 1 → ¬ e.Touches i := by
        rintro i hi ⟨s, hs, his⟩
        rcases hapart e (hown s hs) s hs with heq | hdisjoint
        · exact he heq
        · omega
      have hkept : (e.perform a).blob.shortAt? slot = some n := by
        rw [(e.grown_perform a).shortAt? (by unfold offset at hsize; omega) (hfree _ (.inl rfl))
          (hfree _ (.inr rfl))]
        exact hn
      rw [hlast, if_neg he, Option.or_none]
      exact ih hrest hsize' hapart' hkept

/-! The instructions. -/

section

open Instruction

variable {captured : Value → Option Nat} {later : List Edit} {is : Instruction}

/-- A loop goes back by the distance that it was written with. -/
theorem decode_loopTo {start : Nat} (hgrown : Grown (· < a.offset) (a.loopTo start).blob b) :
    decode captured b a.offset = .ok ⟨a.offset, .loop, .jump (UInt16.ofNat (a.offset + 3 - start))
      (Int.ofNat (a.offset + 3) - Int.ofNat (UInt16.ofNat (a.offset + 3 - start)).toNat), 3⟩ := by
  obtain ⟨hop, hn⟩ := opShort_stands hgrown fun i hi _ => Nat.not_lt.2 hi
  have hend : (a.loopTo start).offset = a.offset + 3 := offset_opShort a .loop _
  exact decode_of_readOperand hop (readOperand_of_holds (.jumpBackward hn) rfl (by decide))
    (Nat.le_trans (Nat.le_of_eq hend.symm) hgrown.size)

/-- An edit without labels appends an instruction that is decoded as it is. -/
theorem Edit.decode_appended (hfits : e.Fits allowed a) (hedit : e.instruction? a later = some is)
    (hgrown : Grown (· < a.offset) (e.perform a).blob b) (hplain : e.allows a = [])
    (hlimit : b.size ≤ 65535)
    (hcaptures : ∀ function cs, e = .closure function cs →
      (b.constant? function).bind captured = some cs.length) :
    decode captured b a.offset = .ok is := by
  have hroom : a.offset + is.width ≤ b.size := by
    have hwidth := offset_perform hfits later
    rw [hedit] at hwidth
    exact Nat.le_trans (Nat.le_of_eq hwidth.symm) hgrown.size
  have hfree : ∀ i, a.offset ≤ i → ¬ i < a.offset := fun i hi => Nat.not_lt.2 hi
  cases e with
  | atLine | constant | patchJump | patchHandler | patchFinally => cases hedit
  | jump | tryRegion => cases hplain
  | op o =>
    obtain rfl := Option.some.inj hedit
    exact decode_of_readOperand (op_stands hgrown (hfree _ (Nat.le_refl _)))
      (readOperand_of_holds .none hfits (by decide)) hroom
  | opByte o n =>
    obtain rfl := Option.some.inj hedit
    have hn : b.byteAt? (a.offset + 1) = some n := by
      rw [← offset_op a o]
      exact byte_stands hgrown (hfree _ (by simp))
    exact decode_of_readOperand
      (op_stands ((Grown.byte (a.op o) n).trans hgrown) (hfree _ (Nat.le_refl _)))
      (readOperand_of_holds (.byte hn) hfits (by decide)) hroom
  | opShort o n =>
    obtain rfl := Option.some.inj hedit
    obtain ⟨hop, hn⟩ := opShort_stands hgrown fun i hi _ => hfree i hi
    refine decode_of_readOperand hop ?_ hroom
    rcases hfits with hlayout | hlayout
    · rw [if_neg (by rw [hlayout]; decide)]
      exact readOperand_of_holds (.short hn) hlayout (by decide)
    · rw [if_pos hlayout]
      exact readOperand_of_holds (.const hn) hlayout (by decide)
  | opConst o v =>
    obtain rfl := Option.some.inj hedit
    obtain ⟨hop, hn⟩ := opShort_stands (a := (a.constant v).2) hgrown fun i hi _ => hfree i hi
    exact decode_of_readOperand hop (readOperand_of_holds (.const hn) hfits (by decide)) hroom
  | push v =>
    obtain rfl := Option.some.inj hedit
    obtain ⟨hop, hn⟩ := opShort_stands (a := (a.constant v).2) hgrown fun i hi _ => hfree i hi
    exact decode_of_readOperand hop (readOperand_of_holds (.const hn) rfl (by decide)) hroom
  | loopTo start =>
    obtain rfl := Option.some.inj hedit
    have hstart : start ≤ a.offset := hfits
    have hend : a.offset + 3 ≤ b.size := hroom
    have hback : Int.ofNat (a.offset + 3) -
        Int.ofNat (UInt16.ofNat (a.offset + 3 - start)).toNat = Int.ofNat start := by
      rw [UInt16.toNat_ofNat_of_lt' (show a.offset + 3 - start < 65536 by omega)]
      simp only [Int.ofNat_eq_natCast]
      omega
    rw [decode_loopTo hgrown, hback]
    rfl
  | invoke o name count =>
    obtain rfl := Option.some.inj hedit
    obtain ⟨hop, hn⟩ := opShort_stands ((Grown.byte (a.opShort o name) count).trans hgrown)
      fun i hi _ => hfree i hi
    have hcount : b.byteAt? (a.offset + 3) = some count := by
      rw [← offset_opShort a o name]
      exact byte_stands hgrown (hfree _ (by simp))
    exact decode_of_readOperand hop (readOperand_of_holds (.invoke hn hcount) hfits (by decide)) hroom
  | defineProperty name isStatic =>
    obtain rfl := Option.some.inj hedit
    obtain ⟨hop, hn⟩ := opShort_stands
      ((Grown.byte (a.opShort .defineProperty name) (if isStatic then 1 else 0)).trans hgrown)
      fun i hi _ => hfree i hi
    have hflag : b.byteAt? (a.offset + 3) = some (if isStatic then 1 else 0) := by
      rw [← offset_opShort a .defineProperty name]
      exact byte_stands hgrown (hfree _ (by simp))
    exact decode_of_readOperand hop (readOperand_of_holds (.constByte hn hflag) rfl (by decide)) hroom
  | closure function cs =>
    obtain rfl := Option.some.inj hedit
    obtain ⟨hop, hn⟩ := opShort_stands
      ((Grown.captures (a.opShort .makeClosure function) cs).trans hgrown) fun i hi _ => hfree i hi
    have hcs : readCaptures b .makeClosure cs.length (a.offset + 3) = .ok cs := by
      rw [← offset_opShort a .makeClosure function]
      exact captures_stand hgrown fun i hi => hfree i (by rw [offset_opShort] at hi; omega)
    refine decode_of_readOperand hop (bind_eq_ok.2 ⟨function, need_eq_ok.2 hn, ?_⟩) hroom
    rw [hcaptures function cs rfl]
    exact bind_eq_ok.2 ⟨cs, hcs, rfl⟩

/-- The numbers behind labels lie in the assembly. -/
def Placed (allowed : List Edit) (a : Assembly) : Prop :=
  ∀ e ∈ allowed, ∀ slot, e.slot? = some slot → slot + 2 ≤ a.offset

theorem Placed.perform (h : Placed allowed a) (e : Edit) :
    Placed (e.allows a ++ allowed) (e.perform a) := by
  intro e' hmem slot hslot
  rcases List.mem_append.1 hmem with hnew | hold
  · exact (Edit.slot_of_allows hnew hslot).2
  · exact Nat.le_trans (h e' hold slot hslot) (e.grown_perform a).size

/-- After an edit only labels are patched: those of its own instruction, and those before it. -/
theorem Edit.grown_rest (hplaced : Placed allowed a)
    (hrest : Labelled (e.allows a ++ allowed) (e.perform a) later) :
    Grown (fun i => i < a.offset ∨ Loose (e.allows a) i) (e.perform a).blob
      (assemble (e.perform a) later).blob := by
  refine (grown_assemble hrest).mono fun i _ hloose => ?_
  rcases loose_append hloose with hown | ⟨e', hmem, slot, hslot, hi⟩
  · exact .inr hown
  · have hbefore := hplaced e' hmem slot hslot
    exact .inl (by omega)

/-- A forward jump goes on by the distance that was patched in last. -/
theorem decode_jump (hlayout : o.layout = .jumpForward) (hplaced : Placed allowed a)
    (hrest : Labelled (Edit.allows a (.jump o) ++ allowed) (a.jump o).2 later)
    (hb : Grown (fun _ => False) (assemble (a.jump o).2 later).blob b) {n : UInt16}
    (hn : n = ((lastOffset (.patchJump (a.jump o).1) (a.jump o).2 later).map
      fun t => UInt16.ofNat (t - (a.offset + 3))).getD 0xffff) :
    decode captured b a.offset =
      .ok ⟨a.offset, o, .jump n (Int.ofNat (a.offset + 3) + Int.ofNat n.toNat), 3⟩ := by
  have hgrown := (Edit.grown_rest (e := .jump o) hplaced hrest).extend hb fun _ _ => False.elim
  have hend : (a.jump o).2.offset = a.offset + 3 := offset_opShort a o 0xffff
  have hop : b.byteAt? a.offset = some o.toByte := by
    refine op_stands ((Grown.short (a.op o) 0xffff).trans hgrown) ?_
    rintro (h | h)
    · omega
    · exact Nat.lt_irrefl _ (Edit.offset_lt_of_loose h).1
  have hplaceholder : (a.jump o).2.blob.shortAt? (a.offset + 1) = some 0xffff :=
    (opShort_stands (.refl _) fun _ _ _ => not_false).2
  have hnumber := shortAt?_assemble (.patchJump (a.jump o).1) hrest rfl
    (show a.offset + 1 + 2 ≤ _ by omega) (fun e' hmem s hs => by
      rcases List.mem_append.1 hmem with hown | hold
      · exact .inl (List.mem_singleton.1 hown)
      · have hbefore := hplaced e' hold s hs
        exact .inr (.inl (show s + 2 ≤ a.offset + 1 by omega))) hplaceholder
  have hlater : a.offset + 3 ≤ (assemble (a.jump o).2 later).blob.size :=
    Nat.le_trans (Nat.le_of_eq hend.symm) (offset_le_assemble _ later)
  have hstands : b.shortAt? (a.offset + 1) = _ :=
    (hb.shortAt? (by omega) not_false not_false).trans hnumber
  have hread : readOperand captured b o a.offset = .ok (_, _) :=
    readOperand_of_holds (.jumpForward hstands) hlayout (by decide)
  rw [hn]
  exact (decode_of_readOperand hop hread (by
    rw [hlayout]
    exact Nat.le_trans hlater hb.size)).trans (by rw [hlayout]; rfl)

/-- In a blob that is not too long, a forward jump goes to the offset at which it is patched. -/
theorem decode_jump_of_limit (hlayout : o.layout = .jumpForward) (hplaced : Placed allowed a)
    (hrest : Labelled (Edit.allows a (.jump o) ++ allowed) (a.jump o).2 later)
    (hlimit : (assemble (a.jump o).2 later).offset ≤ 65535)
    (hedit : Edit.instruction? a later (.jump o) = some is) :
    decode captured (assemble (a.jump o).2 later).blob a.offset = .ok is := by
  have hend : (a.jump o).2.offset = a.offset + 3 := offset_opShort a o 0xffff
  obtain rfl := Option.some.inj hedit
  rw [decode_jump hlayout hplaced hrest (.refl _) rfl]
  simp only [Edit.perform, hlayout]
  cases hlast : lastOffset (.patchJump (a.jump o).1) (a.jump o).2 later with
  | none =>
    simp only [Option.map_none, Option.getD_none, Nat.add_sub_cancel_left]
    rfl
  | some t =>
    obtain ⟨hlower, hupper⟩ := lastOffset_bounds hlast
    have hdistance : (UInt16.ofNat (t - (a.offset + 3))).toNat = t - (a.offset + 3) :=
      UInt16.toNat_ofNat_of_lt' (show t - (a.offset + 3) < 65536 by omega)
    have htarget : Int.ofNat (a.offset + 3) + Int.ofNat (t - (a.offset + 3)) = (t : Int) := by
      simp only [Int.ofNat_eq_natCast]
      omega
    rw [Option.map_some, Option.getD_some, hdistance, htarget]
    rfl

/-- An address of a try region is the one that is patched in last, or zero. -/
theorem address_stands {type : UInt16} {patch : Edit}
    (hrest : Labelled (Edit.allows a (.tryRegion type) ++ allowed) (a.tryRegion type).2 later)
    (hb : Grown (fun _ => False) (assemble (a.tryRegion type).2 later).blob b)
    (hslot : patch.slot? = some slot) (hpatched : ∀ t, patch.patchedIn t = UInt16.ofNat t)
    (hsize : slot + 2 ≤ a.offset + 7)
    (hapart : ∀ e ∈ Edit.allows a (.tryRegion type) ++ allowed, ∀ s, e.slot? = some s →
      e = patch ∨ s + 2 ≤ slot ∨ slot + 2 ≤ s)
    (hzero : (a.tryRegion type).2.blob.shortAt? slot = some 0) :
    b.shortAt? slot =
      some (UInt16.ofNat ((lastOffset patch (a.tryRegion type).2 later).getD 0)) := by
  have hend : (a.tryRegion type).2.offset = a.offset + 7 := by simp [tryRegion]
  have hlater : a.offset + 7 ≤ (assemble (a.tryRegion type).2 later).blob.size :=
    Nat.le_trans (Nat.le_of_eq hend.symm) (offset_le_assemble _ later)
  rw [hb.shortAt? (by omega) not_false not_false,
    shortAt?_assemble patch hrest hslot (by omega) hapart hzero]
  cases lastOffset patch (a.tryRegion type).2 later with
  | none => rfl
  | some t => exact congrArg some (hpatched t)

/-- The labels in reach of a try region are its own two, or stand before it. -/
theorem Placed.cases_tryRegion {type : UInt16} (hplaced : Placed allowed a)
    (hmem : e ∈ Edit.allows a (.tryRegion type) ++ allowed) (hslot : e.slot? = some slot) :
    e = .patchHandler (a.tryRegion type).1 ∧ slot = a.offset + 3 ∨
      e = .patchFinally (a.tryRegion type).1 ∧ slot = a.offset + 5 ∨ slot + 2 ≤ a.offset := by
  rcases List.mem_append.1 hmem with hown | hold
  · simp only [Edit.allows, List.mem_cons, List.not_mem_nil, or_false] at hown
    rcases hown with rfl | rfl
    · exact .inl ⟨rfl, (Option.some.inj hslot).symm⟩
    · exact .inr (.inl ⟨rfl, (Option.some.inj hslot).symm⟩)
  · exact .inr (.inr (hplaced e hold slot hslot))

/-- A try region has the addresses that are patched in. -/
theorem decode_tryRegion {type : UInt16} (hplaced : Placed allowed a)
    (hrest : Labelled (Edit.allows a (.tryRegion type) ++ allowed) (a.tryRegion type).2 later)
    (hb : Grown (fun _ => False) (assemble (a.tryRegion type).2 later).blob b)
    (hedit : Edit.instruction? a later (.tryRegion type) = some is) :
    decode captured b a.offset = .ok is := by
  have hgrown :=
    (Edit.grown_rest (e := .tryRegion type) hplaced hrest).extend hb fun _ _ => False.elim
  have hbefore : Grown _ (a.opShort .enterTry type).blob _ :=
    ((Grown.short (a.opShort .enterTry type) 0).trans (.short _ 0)).trans hgrown
  have hfree : ∀ i, a.offset ≤ i → i ≤ a.offset + 2 →
      ¬ (i < a.offset ∨ Loose (Edit.allows a (.tryRegion type)) i) := by
    rintro i hlower hupper (h | ⟨e', hmem, slot, hslot, hi⟩)
    · omega
    · have hlabel := hplaced.cases_tryRegion (List.mem_append_left _ hmem) hslot
      omega
  obtain ⟨hop, htype⟩ := opShort_stands hbefore hfree
  have hhandler : b.shortAt? (a.offset + 3) = some (UInt16.ofNat
      ((lastOffset (.patchHandler (a.tryRegion type).1) (a.tryRegion type).2 later).getD 0)) := by
    refine address_stands hrest hb rfl (fun _ => rfl) (by omega) (fun e' hmem s hs => ?_) ?_
    · rcases hplaced.cases_tryRegion hmem hs with ⟨h, -⟩ | ⟨-, h⟩ | h
      · exact .inl h
      · exact .inr (.inr (by omega))
      · exact .inr (.inl (by omega))
    · have hgrows : Grown (fun _ => False) ((a.opShort .enterTry type).short 0).blob
          (a.tryRegion type).2.blob := .short _ 0
      rw [← offset_opShort a .enterTry type]
      exact short_stands hgrows not_false not_false
  have hfinally : b.shortAt? (a.offset + 5) = some (UInt16.ofNat
      ((lastOffset (.patchFinally (a.tryRegion type).1) (a.tryRegion type).2 later).getD 0)) := by
    refine address_stands hrest hb rfl (fun _ => rfl) (by omega) (fun e' hmem s hs => ?_) ?_
    · rcases hplaced.cases_tryRegion hmem hs with ⟨-, h⟩ | ⟨h, -⟩ | h
      · exact .inr (.inl (by omega))
      · exact .inl h
      · exact .inr (.inl (by omega))
    · have hgrows : Grown (fun _ => False) (a.tryRegion type).2.blob _ := .refl _
      have hoffset : ((a.opShort .enterTry type).short 0).offset = a.offset + 5 := by simp
      rw [← hoffset]
      exact short_stands hgrows not_false not_false
  have hend : (a.tryRegion type).2.offset = a.offset + 7 := by simp [tryRegion]
  obtain rfl := Option.some.inj hedit
  exact decode_of_readOperand hop
    (readOperand_of_holds (.tryRegion htype hhandler hfinally) rfl (by decide))
    (Nat.le_trans (Nat.le_of_eq hend.symm) hgrown.size)

/-- The instructions stream through the finished blob. -/
theorem streams_assemble (hproper : Proper allowed a edits) (hplaced : Placed allowed a)
    (hlimit : (assemble a edits).offset ≤ 65535)
    (hcaptures : ∀ function cs, .closure function cs ∈ edits →
      ((assemble a edits).blob.constant? function).bind captured = some cs.length) :
    Streams captured (assemble a edits).blob a.offset (listing a edits) := by
  induction edits generalizing a allowed with
  | nil => exact .done rfl
  | cons e rest ih =>
    obtain ⟨hfits, hrest⟩ := hproper
    have hstreams := ih hrest (hplaced.perform e) hlimit fun function cs hmem =>
      hcaptures function cs (List.mem_cons_of_mem e hmem)
    have hoffset := e.offset_perform hfits rest
    show Streams captured (assemble (e.perform a) rest).blob a.offset
      ((e.instruction? a rest).toList ++ listing (e.perform a) rest)
    cases hedit : e.instruction? a rest with
    | none =>
      rw [hedit] at hoffset
      rw [← show (e.perform a).offset = a.offset from hoffset]
      exact hstreams
    | some is =>
      rw [hedit] at hoffset
      have hdecode : decode captured (assemble (e.perform a) rest).blob a.offset = .ok is := by
        cases hallows : e.allows a with
        | nil =>
          have hgrown := Edit.grown_rest hplaced hrest.labelled
          refine Edit.decode_appended hfits hedit (hgrown.mono ?_) hallows hlimit
            fun function cs heq => hcaptures function cs (heq ▸ List.mem_cons_self)
          rintro i - (h | ⟨e', hmem, -⟩)
          · exact h
          · rw [hallows] at hmem
            cases hmem
        | cons =>
          cases e with
          | jump => exact decode_jump_of_limit hfits hplaced hrest.labelled hlimit hedit
          | tryRegion => exact decode_tryRegion hplaced hrest.labelled (.refl _) hedit
          | _ => cases hallows
      obtain ⟨hstart, -⟩ := decoded_of_decode hdecode
      have hend : is.next = (e.perform a).offset := by
        rw [hoffset, Instruction.next, hstart]
        rfl
      rw [← hend] at hstreams
      rw [← hstart] at hdecode ⊢
      exact .next hdecode hstreams

/-- A constant that was added stands at its index. -/
theorem constant?_assemble {v : Value} {before after : List Edit}
    (hedits : edits = before ++ e :: after) (hadded : e.added? = some v)
    (hlimit : (assemble a edits).blob.constants.size ≤ 65536) :
    (assemble a edits).blob.constant? (UInt16.ofNat (assemble a before).blob.constants.size) =
      some v := by
  have hsplit : assemble a edits = assemble (e.perform (assemble a before)) after := by
    rw [hedits]
    exact List.foldl_append
  rw [hsplit] at hlimit ⊢
  generalize assemble a before = a' at hlimit ⊢
  have hconstants : (e.perform a').blob.constants = a'.blob.constants.push v := by
    cases e with
    | constant | opConst | push =>
      obtain rfl := Option.some.inj hadded
      rfl
    | _ => cases hadded
  have hgrown := grown_assemble_any (e.perform a') after
  have hroom := hgrown.room
  have hstands := hgrown.constants a'.blob.constants.size
  rw [hconstants, Array.size_push] at hroom hstands
  have hindex : (UInt16.ofNat a'.blob.constants.size).toNat = a'.blob.constants.size :=
    UInt16.toNat_ofNat_of_lt' (show a'.blob.constants.size < 65536 by omega)
  unfold Blob.constant?
  rw [hindex, hstands (Nat.lt_succ_self _), Array.getElem?_push_size]

end

/-- Decoding undoes assembling: a blob decodes to the instructions that were appended, one after
the other, with the operands and addresses they were given last, and the constants stand where the
instructions refer to them. -/
theorem decodeAll_assemble {captured : Value → Option Nat} {edits : List Edit}
    (hproper : Proper [] empty edits) (hsize : (assemble empty edits).blob.size ≤ 65535)
    (hconstants : (assemble empty edits).blob.constants.size ≤ 65536)
    (hcaptures : ∀ function cs, .closure function cs ∈ edits →
      ((assemble empty edits).blob.constant? function).bind captured = some cs.length) :
    Instruction.decodeAll captured (assemble empty edits).blob =
        ⟨(listing empty edits).toArray, none⟩ ∧
      (∀ before i after, listing empty edits = before ++ i :: after →
        i.offset = (before.map Instruction.width).sum) ∧
      ((listing empty edits).map Instruction.width).sum = (assemble empty edits).blob.size ∧
      ∀ before e after v, edits = before ++ e :: after → e.added? = some v →
        (assemble empty edits).blob.constant?
          (UInt16.ofNat (assemble empty before).blob.constants.size) = some v := by
  have hstreams := streams_assemble hproper (fun _ hmem => nomatch hmem) hsize hcaptures
  refine ⟨Instruction.decodeAll_eq_iff.2 hstreams, ?_, ?_, ?_⟩
  · intro before i after his
    rw [hstreams.offset_eq his]
    exact Nat.zero_add _
  · rw [← hstreams.sum_width]
    exact (Nat.zero_add _).symm
  · intro before e after v hedits hadded
    exact constant?_assemble hedits hadded hconstants

/-- A guarded loop around a closure: the handler is patched twice and the finally block never. -/
theorem decodeAll_assemble_guarded :
    Instruction.decodeAll (fun _ => some 1)
        (assemble empty [.constant .nil, .tryRegion 0, .jump .jumpIfFalse,
          .patchHandler ⟨1⟩, .closure 0 [⟨true, 3⟩], .loopTo 7, .patchJump ⟨8⟩, .push (.bool true),
          .patchHandler ⟨1⟩]).blob =
      ⟨#[⟨0, .enterTry, .tryRegion 0 22 0, 7⟩, ⟨7, .jumpIfFalse, .jump 9 19, 3⟩,
        ⟨10, .makeClosure, .closure 0 [⟨true, 3⟩], 6⟩, ⟨16, .loop, .jump 12 7, 3⟩,
        ⟨19, .pushConst, .const 1, 3⟩], none⟩ := by
  refine (decodeAll_assemble ?_ (by decide) (by decide) ?_).1.trans rfl
  · exact ⟨trivial, trivial, rfl, .tail _ (.head _), trivial, (by decide : 7 ≤ 16), .head _, trivial,
      .tail _ (.head _), trivial⟩
  · intro function cs hmem
    obtain ⟨rfl, rfl⟩ : function = 0 ∧ cs = [⟨true, 3⟩] := by simpa using hmem
    rfl

end Assembly

end ScriptMachine
