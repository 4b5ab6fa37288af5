import ScriptMachine.Proofs.Machine.Quiet.Member

/-!
Reading operands. What an instruction reads depends on its layout alone, and reading moves the
innermost call to the end of what was read. All operations but those that jump, make closures,
return or deal with regions then carry on from there: they make a quiet change or push a frame.
An operand that cannot be read is a defect of the stream.
-/

namespace ScriptMachine

/-- The constant whose index stands at an offset. -/
def Blob.constantAt? (b : Blob) (offset : Nat) : Option Value :=
  (b.shortAt? offset).bind b.constant?

/-- Whether the operand at an offset can be read and its constant exists. What a closure captures
is read apart. -/
def Layout.isReadable (b : Blob) (offset : Nat) : Layout → Bool
  | none => true
  | byte => (b.byteAt? offset).isSome
  | short | jumpForward | jumpBackward => (b.shortAt? offset).isSome
  | const | closure => (b.constantAt? offset).isSome
  | invoke | constByte => (b.constantAt? offset).isSome && (b.byteAt? (offset + 2)).isSome
  | tryRegion =>
    (b.constantAt? offset).isSome && (b.shortAt? (offset + 2)).isSome &&
      (b.shortAt? (offset + 4)).isSome

/-- The operations that neither move the innermost call nor deal with closures and regions. -/
def Opcode.isPlain : Opcode → Bool
  | jump | jumpIfFalse | loop | switch | makeClosure | ret | enterTry | popTry | endFinally
  | halt => false
  | _ => true

namespace Machine

variable {α β : Type} {host : Host} {m : Machine} {f : Frame} {rest : List Frame}

/-- The innermost call moved to an offset. -/
def atOffset (m : Machine) (ip : Nat) : Machine :=
  { m with frames := m.frames.modifyHead fun f => { f with ip } }

theorem frames_atOffset (hframes : m.frames = f :: rest) (ip : Nat) :
    (m.atOffset ip).frames = { f with ip } :: rest := by
  simp [atOffset, hframes]

theorem atOffset_atOffset (m : Machine) (a b : Nat) : (m.atOffset a).atOffset b = m.atOffset b := by
  unfold atOffset
  cases m.frames <;> rfl

theorem atOffset_self (hframes : m.frames = f :: rest) : m.atOffset f.ip = m := by
  obtain ⟨settings, heap, stack, frames⟩ := m
  obtain rfl : frames = f :: rest := hframes
  rfl

@[simp]
theorem length_frames_atOffset (m : Machine) (ip : Nat) :
    (m.atOffset ip).frames.length = m.frames.length := by
  simp [atOffset]

theorem frame_eq (hframes : m.frames = f :: rest) : frame m = .ok f m := by
  unfold frame
  rw [get_bind, hframes]
  rfl

theorem frame_of_nil (hframes : m.frames = []) :
    frame m = .error (.fault (.internal .noFrame)) m := by
  unfold frame
  rw [get_bind, hframes]
  rfl

theorem jumpTo_eq (hframes : m.frames = f :: rest) (offset : Nat) :
    jumpTo offset m = .ok () (m.atOffset offset) := by
  unfold jumpTo modifyFrame atOffset
  rw [get_bind, hframes]
  rfl

theorem jumpBy_eq (hframes : m.frames = f :: rest) (distance : Nat) :
    jumpBy distance m = .ok () (m.atOffset (f.ip + distance)) := by
  unfold jumpBy modifyFrame atOffset
  rw [get_bind, hframes]
  rfl

/-! Reading. -/

/-- An action that reads at the innermost call and moves it on, as far as the stream allows. -/
def Reads (x : Exec α) (read : Blob → Nat → Option α) (width : Nat) : Prop :=
  ∀ m f rest, m.frames = f :: rest →
    (∃ a, read f.proto.blob f.ip = some a ∧ x m = .ok a (m.atOffset (f.ip + width))) ∨
    read f.proto.blob f.ip = none ∧
      ∃ ip offset d, x m = .error (.fault (.malformed offset d)) (m.atOffset ip)

theorem reads_pure (a : α) : Reads (pure a) (fun _ _ => some a) 0 := by
  intro m f rest hframes
  refine Or.inl ⟨a, rfl, ?_⟩
  rw [Nat.add_zero, atOffset_self hframes]
  rfl

theorem Reads.bind {x : Exec α} {g : α → Exec β} {read : Blob → Nat → Option α}
    {read' : α → Blob → Nat → Option β} {width width' : Nat} (hx : Reads x read width)
    (hg : ∀ a, Reads (g a) (read' a) width') :
    Reads (x >>= g) (fun b offset => (read b offset).bind fun a => read' a b (offset + width))
      (width + width') := by
  intro m f rest hframes
  dsimp only
  rcases hx m f rest hframes with ⟨a, ha, hok⟩ | ⟨hnone, ip, offset, d, herror⟩
  · have hnext := frames_atOffset hframes (f.ip + width)
    rw [bind_of_ok hok, ha]
    rcases hg a _ _ _ hnext with ⟨b, hb, hok'⟩ | ⟨hnone, ip, offset, d, herror⟩
    · refine Or.inl ⟨b, hb, ?_⟩
      rw [hok', atOffset_atOffset, Nat.add_assoc]
    · refine Or.inr ⟨hnone, ip, offset, d, ?_⟩
      rw [herror, atOffset_atOffset]
  · rw [hnone]
    exact Or.inr ⟨rfl, ip, offset, d, bind_of_error herror g⟩

theorem reads_fetchByte : Reads fetchByte Blob.byteAt? 1 := by
  intro m f rest hframes
  unfold fetchByte
  rw [bind_of_ok (frame_eq hframes)]
  cases hbyte : f.proto.blob.byteAt? f.ip with
  | some b =>
    refine Or.inl ⟨b, rfl, ?_⟩
    dsimp only
    rw [bind_of_ok (jumpTo_eq hframes _)]
    rfl
  | none =>
    refine Or.inr ⟨rfl, f.ip, f.ip, .pastEnd, ?_⟩
    rw [atOffset_self hframes]
    rfl

theorem reads_fetchShort : Reads fetchShort Blob.shortAt? 2 := by
  have hreads : Reads fetchShort _ (1 + (1 + 0)) :=
    reads_fetchByte.bind fun high => reads_fetchByte.bind fun low =>
      reads_pure (shortOfBytes high low)
  exact hreads

theorem reads_fetchConstant : Reads fetchConstant Blob.constantAt? 2 := by
  have hlookup (index : UInt16) :
      Reads (constant index) (fun b _ => b.constant? index) 0 := by
    intro m f rest hframes
    unfold constant
    dsimp only
    rw [bind_of_ok (frame_eq hframes), Nat.add_zero, atOffset_self hframes]
    cases f.proto.blob.constant? index with
    | some v => exact Or.inl ⟨v, rfl, rfl⟩
    | none =>
      refine Or.inr ⟨rfl, f.ip, f.ip, .missingConstant index.toNat, ?_⟩
      rw [atOffset_self hframes]
      rfl
  exact reads_fetchShort.bind hlookup

/-! Plain operations. -/

/-- The result of an instruction after which the run goes on. -/
def Carried (host : Host) (m : Machine) : EStateM.Result Signal Machine (Option Ending) → Prop
  | .ok e m' => e = none ∧ (Quiet host m m' ∨ ∃ base, Called host base m m')
  | .error s m' => Quiet host m m' ∧ s.blamesCode = false

theorem carried_proceed {x : Exec Unit} (hx : MayCall host x) (m : Machine) :
    Carried host m (proceed x m) := by
  have hcalls : Calls host m (x m) := hx m
  unfold proceed
  cases hres : x m with
  | ok a m' =>
    rw [hres] at hcalls
    rw [bind_of_ok hres]
    exact ⟨rfl, hcalls⟩
  | error s m' =>
    rw [hres] at hcalls
    rw [bind_of_error hres]
    exact hcalls

/-- An operation that reads its operand and carries on behind it, if the stream allows. It starts
behind the byte of its code. -/
def Performs (host : Host) (layout : Layout) (x : Exec (Option Ending)) : Prop :=
  ∀ m f rest, m.frames = f :: rest →
    layout.isReadable f.proto.blob f.ip = true ∧
      Carried host (m.atOffset (f.ip + (layout.width 0 - 1))) (x m) ∨
    layout.isReadable f.proto.blob f.ip = false ∧
      ∃ ip offset d, x m = .error (.fault (.malformed offset d)) (m.atOffset ip)

theorem performs_none {x : Exec Unit} (hx : MayCall host x) : Performs host .none (proceed x) := by
  intro m f rest hframes
  have hsame : m.atOffset (f.ip + (Layout.none.width 0 - 1)) = m := atOffset_self hframes
  refine Or.inl ⟨rfl, ?_⟩
  rw [hsame]
  exact carried_proceed hx m

theorem performs_reads {layout : Layout} {x : Exec α} {read : Blob → Nat → Option α}
    {g : α → Exec Unit} (hx : Reads x read (layout.width 0 - 1))
    (hreadable : ∀ b offset, layout.isReadable b offset = (read b offset).isSome)
    (hg : ∀ a, MayCall host (g a)) : Performs host layout (proceed (x >>= g)) := by
  intro m f rest hframes
  have hbind : proceed (x >>= g) = x >>= fun a => proceed (g a) := bind_assoc x g _
  rw [hbind, hreadable]
  rcases hx m f rest hframes with ⟨a, ha, hok⟩ | ⟨hnone, ip, offset, d, herror⟩
  · rw [ha, bind_of_ok hok]
    exact Or.inl ⟨rfl, carried_proceed (hg a) _⟩
  · rw [hnone, bind_of_error herror]
    exact Or.inr ⟨rfl, ip, offset, d, rfl⟩

theorem performs_byte {g : UInt8 → Exec Unit} (hg : ∀ b, MayCall host (g b)) :
    Performs host .byte (proceed (fetchByte >>= g)) :=
  performs_reads reads_fetchByte (fun _ _ => rfl) hg

theorem performs_short {g : UInt16 → Exec Unit} (hg : ∀ n, Mild host (g n)) :
    Performs host .short (proceed (fetchShort >>= g)) :=
  performs_reads reads_fetchShort (fun _ _ => rfl) fun n => (hg n).mayCall

theorem performs_const {g : Value → Exec Unit} (hg : ∀ v, MayCall host (g v)) :
    Performs host .const (proceed (fetchConstant >>= g)) :=
  performs_reads reads_fetchConstant (fun _ _ => rfl) hg

/-- A constant and a byte behind it. -/
theorem reads_constantByte : Reads (do
      let v ← fetchConstant
      let b ← fetchByte
      return (v, b))
    (fun blob offset => (blob.constantAt? offset).bind fun v =>
      (blob.byteAt? (offset + 2)).bind fun b => some (v, b)) 3 :=
  reads_fetchConstant.bind fun v => reads_fetchByte.bind fun b => reads_pure (v, b)

theorem performs_constantByte {layout : Layout} (hlayout : layout = .invoke ∨ layout = .constByte)
    {g : Value → UInt8 → Exec Unit} (hg : ∀ v b, MayCall host (g v b)) :
    Performs host layout (proceed (fetchConstant >>= fun v => fetchByte >>= g v)) := by
  have hperforms : Performs host layout (proceed ((do
      let v ← fetchConstant
      let b ← fetchByte
      return (v, b)) >>= fun p => g p.1 p.2)) := by
    have hwidth : layout.width 0 - 1 = 3 := by rcases hlayout with rfl | rfl <;> rfl
    refine performs_reads (hwidth ▸ reads_constantByte) ?_ fun p => hg p.1 p.2
    intro blob offset
    have hreadable : layout.isReadable blob offset =
        ((blob.constantAt? offset).isSome && (blob.byteAt? (offset + 2)).isSome) := by
      rcases hlayout with rfl | rfl <;> rfl
    rw [hreadable]
    cases blob.constantAt? offset with
    | none => rfl
    | some v => cases blob.byteAt? (offset + 2) <;> rfl
  simpa only [bind_assoc, pure_bind] using hperforms

theorem performs_execute (start : Nat) {op : Opcode} (hplain : op.isPlain = true) :
    Performs host op.layout (execute host start op) := by
  cases op with
  | pushConst => exact performs_const fun v => (mild_push v).mayCall
  | pushNil => exact performs_none (mild_push _).mayCall
  | pushEmpty => exact performs_none (mild_push _).mayCall
  | pushTrue => exact performs_none (mild_push _).mayCall
  | pushFalse => exact performs_none (mild_push _).mayCall
  | pushOne => exact performs_none (mild_push _).mayCall
  | pop => exact performs_none (mild_pop.bind fun _ => mild_pure ()).mayCall
  | popN => exact performs_short fun n => mild_drop _
  | dup => exact performs_none ((mild_peek 0).bind fun v => mild_push v).mayCall
  | globalDefine => exact performs_const fun v => (mild_defineNamed v).mayCall
  | globalGet => exact performs_const fun v => (mild_getNamed v).mayCall
  | globalSet => exact performs_const fun v => (mild_setNamed v).mayCall
  | localGet => exact performs_short fun n => mild_getLocal _
  | localSet => exact performs_short fun n => mild_setLocal _
  | argDefault => exact performs_short fun n => mild_defaultLocal _
  | upvalueGet => exact performs_short fun n => (mild_readUpvalue _).bind fun v => mild_push v
  | upvalueSet => exact performs_short fun n => (mild_peek 0).bind fun v => mild_writeUpvalue _ v
  | closeUpvalue => exact performs_none mild_closeTop.mayCall
  | add => exact performs_none mild_add.mayCall
  | sub => exact performs_none (mild_binaryNumber _ _).mayCall
  | mul => exact performs_none mild_multiply.mayCall
  | div => exact performs_none (mild_binaryNumber _ _).mayCall
  | floorDiv => exact performs_none (mild_binaryNumber _ _).mayCall
  | mod => exact performs_none (mild_binaryNumber _ _).mayCall
  | pow => exact performs_none (mild_binaryNumber _ _).mayCall
  | negate => exact performs_none (mild_unaryNumber _ _).mayCall
  | not => exact performs_none (mild_pop.bind fun _ => mild_read fun _ => mild_push _).mayCall
  | bitNot => exact performs_none (mild_unaryNumber _ _).mayCall
  | bitAnd => exact performs_none (mild_binaryNumber _ _).mayCall
  | bitOr => exact performs_none (mild_binaryNumber _ _).mayCall
  | bitXor => exact performs_none (mild_binaryNumber _ _).mayCall
  | shiftLeft => exact performs_none (mild_binaryNumber _ _).mayCall
  | shiftRight => exact performs_none (mild_binaryNumber _ _).mayCall
  | equal =>
    exact performs_none (mild_pop.bind fun _ => mild_pop.bind fun _ => mild_push _).mayCall
  | greater => exact performs_none (mild_binaryNumber _ _).mayCall
  | less => exact performs_none (mild_binaryNumber _ _).mayCall
  | call =>
    exact performs_byte fun count => (mild_peek _).thenCall fun v => mayCall_callValue v _
  | invoke => exact performs_constantByte (Or.inl rfl) fun name count => mayCall_invoke _ _ _
  | invokeSelf => exact performs_constantByte (Or.inl rfl) fun name count => mayCall_invoke _ _ _
  | invokeSuper => exact performs_constantByte (Or.inl rfl) fun name count => mayCall_invokeSuper _ _
  | superConstructor => exact performs_byte fun count => mayCall_superConstructor _
  | makeClass => exact performs_const fun v => (mild_makeClass v).mayCall
  | makeMethod => exact performs_const fun v => (mild_makeMethod v).mayCall
  | defineProperty =>
    exact performs_constantByte (Or.inr rfl) fun name flag => (mild_defineProperty _ _).mayCall
  | inherit => exact performs_none mild_inherit.mayCall
  | getSuper => exact performs_const fun v => (mild_getSuper v).mayCall
  | propertyGet => exact performs_const fun v => mayCall_getProperty v _
  | propertyGetSelf => exact performs_const fun v => mayCall_getProperty v _
  | propertySet => exact performs_const fun v => (mild_setProperty v).mayCall
  | makeArray => exact performs_short fun n => mild_makeArray _
  | makeDict => exact performs_short fun n => mild_makeDict _
  | makeRange => exact performs_none mild_makeRange.mayCall
  | indexGet => exact performs_byte fun flag => (mild_getIndex _).mayCall
  | sliceGet => exact performs_byte fun flag => (mild_getSlice _).mayCall
  | indexSet => exact performs_none mild_setIndex.mayCall
  | throwTop => exact performs_none mild_throwTop.mayCall
  | typeOf => exact performs_none mild_typeOfTop.mayCall
  | stringify => exact performs_none mild_stringify.mayCall
  | instanceOf => exact performs_none mild_testInstance.mayCall
  | echo => exact performs_none mild_echo.mayCall
  | assert => exact performs_none mild_assertTop.mayCall
  | jump | jumpIfFalse | loop | switch | makeClosure | ret | enterTry | popTry | endFinally
  | halt => cases hplain

end Machine

end ScriptMachine
