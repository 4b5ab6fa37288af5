import ScriptMachine.Proofs.Code.Decoding
import ScriptMachine.Proofs.Machine.Turn.Instruction

/-!
Carrying out decoded instructions. A machine that reads nothing itself but takes the operands that
decoding has found does what a machine does that reads its stream byte by byte. A closure finds the
cells of its captures while it reads them, so its call moves over one capture after the other; all
other operands are read as a whole first.
-/

namespace ScriptMachine

open Instruction

variable {captured : Value → Option Nat} {blob : Blob} {op : Opcode} {offset : Nat}

namespace Machine

variable {α β : Type} {host : Host} {m m' : Machine} {f : Frame} {rest : List Frame}

/-- Finds the cells of captures that were read, and moves the call over each of them. -/
def captureEach (base : Nat) : List Capture → Exec (List Ref)
  | [] => return []
  | c :: rest => do
    jumpBy 3
    let cell ←
      if c.isLocal then modifyGet fun m => m.captureSlot (base + c.index.toNat)
      else frameUpvalue c.index.toNat
    return cell :: (← captureEach base rest)

/-- Makes a closure of a function constant and captures that were read. -/
def makeClosureOf (function : Value) (captures : List Capture) : Exec Unit := do
  match function with
  | .ref function =>
    match (← get).heap.get? function with
    | some (.function proto) =>
      let base := (← frame).base
      let upvalues ← captureEach base captures
      let c ← modifyGet fun m => m.alloc (.closure { function, proto, upvalues })
      push c
    | _ => breach .closureOperand
  | _ => breach .closureOperand

/-- Enters a try region whose operands were read. -/
def enterRegion (type : Value) (handler block : UInt16) : Exec Unit := do
  let m ← get
  let frameDepth := m.frames.length
  let nested := (m.regions.takeWhile fun r => r.frameDepth == frameDepth).length
  if m.settings.maxTryDepth ≤ nested then misuse .tooManyRegions
  else
    let filter? := if handler = 0 || type.isNil then none else some (m.filterClass type)
    let region : Region :=
      { handler? := address? handler
        finally? := address? block
        filter?
        stackDepth := m.stack.size
        frameDepth }
    set { m with regions := region :: m.regions }

/-- Carries out a decoded instruction in a call that stands behind its operand. An operation without
an operand has nothing to read. -/
def perform (host : Host) (i : Instruction) : Exec (Option Ending) :=
  match i.op, i.operand with
  | .pushConst, .const index => proceed do push (← constant index)
  | .popN, .short n => proceed (drop n.toNat)
  | .globalDefine, .const name => proceed do defineNamed (← constant name)
  | .globalGet, .const name => proceed do getNamed (← constant name)
  | .globalSet, .const name => proceed do setNamed (← constant name)
  | .localGet, .short slot => proceed (getLocal slot.toNat)
  | .localSet, .short slot => proceed (setLocal slot.toNat)
  | .argDefault, .short slot => proceed (defaultLocal slot.toNat)
  | .upvalueGet, .short index => proceed do push (← readUpvalue index.toNat)
  | .upvalueSet, .short index => proceed do writeUpvalue index.toNat (← peek 0)
  | .jump, .jump _ target => proceed (jumpTo target.toNat)
  | .jumpIfFalse, .jump _ target => proceed do
    let v ← pop
    if (← get).heap.isFalsy v then jumpTo target.toNat
  | .loop, .jump _ target => proceed (jumpTo target.toNat)
  | .call, .byte count => proceed do callValue host (← peek count.toNat) count.toNat
  | .invoke, .invoke name count => proceed do invoke host (← constant name) count.toNat false
  | .invokeSelf, .invoke name count => proceed do invoke host (← constant name) count.toNat true
  | .invokeSuper, .invoke name count => proceed do invokeSuper host (← constant name) count.toNat
  | .superConstructor, .byte count => proceed (superConstructor host count.toNat)
  | .makeClosure, .closure function captures =>
    proceed do makeClosureOf (← constant function) captures
  | .makeClass, .const name => proceed do makeClass (← constant name)
  | .makeMethod, .const name => proceed do makeMethod (← constant name)
  | .defineProperty, .constByte name flag => proceed do
    defineProperty (← constant name) (flag != 0)
  | .getSuper, .const name => proceed do getSuper (← constant name)
  | .propertyGet, .const name => proceed do getProperty host (← constant name) false
  | .propertyGetSelf, .const name => proceed do getProperty host (← constant name) true
  | .propertySet, .const name => proceed do setProperty (← constant name)
  | .makeArray, .short count => proceed (makeArray count.toNat)
  | .makeDict, .short count => proceed (makeDict count.toNat)
  | .indexGet, .byte flag => proceed (getIndex (flag != 0))
  | .sliceGet, .byte flag => proceed (getSlice (flag != 0))
  | .enterTry, .tryRegion type handler block => proceed do
    enterRegion (← constant type) handler block
  | .switch, .const table => proceed do switchOn (← constant table)
  | .halt, .byte status => do
    modify reset
    return some (.halted status)
  | op, _ => execute host i.offset op

/-! Reading. -/

theorem proceed_bind {x : Exec α} {a : α} (hx : x m = .ok a m') (g : α → Exec Unit) :
    proceed (x >>= g) m = proceed (g a) m' := by
  have hbind : proceed (x >>= g) = x >>= fun a => proceed (g a) := bind_assoc x g _
  rw [hbind, bind_of_ok hx]

/-- What stands in the stream is read, and the call moves behind it. -/
theorem Reads.eq_ok {x : Exec α} {read : Blob → Nat → Option α} {width ip : Nat}
    (hx : Reads x read width) (hframes : m.frames = f :: rest) {a : α}
    (ha : read f.proto.blob ip = some a) :
    x (m.atOffset ip) = .ok a (m.atOffset (ip + width)) := by
  rcases hx _ _ _ (frames_atOffset hframes ip) with ⟨b, hb, hok⟩ | ⟨hnone, -⟩
  · dsimp only at hb hok
    obtain rfl := Option.some.inj (ha.symm.trans hb)
    rw [hok, atOffset_atOffset]
  · exact absurd (ha.symm.trans hnone) nofun

theorem constant_eq {index : UInt16} {v : Value} {ip : Nat} (hframes : m.frames = f :: rest)
    (hv : f.proto.blob.constant? index = some v) :
    constant index (m.atOffset ip) = .ok v (m.atOffset ip) := by
  unfold constant
  rw [bind_of_ok (frame_eq (frames_atOffset hframes ip))]
  simp only [hv]
  rfl

theorem fetchConstant_eq {index : UInt16} {v : Value} {ip : Nat} (hframes : m.frames = f :: rest)
    (hindex : f.proto.blob.shortAt? ip = some index)
    (hv : f.proto.blob.constant? index = some v) :
    fetchConstant (m.atOffset ip) = .ok v (m.atOffset (ip + 2)) :=
  reads_fetchConstant.eq_ok hframes (Option.bind_eq_some_iff.2 ⟨index, hindex, hv⟩)

/-! One layout after the other. -/

section Layouts

variable {w : Nat} (hframes : m.frames = f :: rest)

include hframes

theorem execute_byte (hop : op.layout = .byte) {n : UInt8}
    (hn : f.proto.blob.byteAt? (f.ip + 1) = some n) :
    execute host f.ip op (m.atOffset (f.ip + 1)) =
      perform host ⟨f.ip, op, .byte n, w⟩ (m.atOffset (f.ip + 2)) := by
  have hread : fetchByte (m.atOffset (f.ip + 1)) = .ok n (m.atOffset (f.ip + 2)) :=
    reads_fetchByte.eq_ok hframes hn
  cases op with
  | call => exact proceed_bind hread _
  | superConstructor => exact proceed_bind hread _
  | indexGet => exact proceed_bind hread _
  | sliceGet => exact proceed_bind hread _
  | halt => exact bind_of_ok hread _
  | _ => cases hop

theorem execute_short (hop : op.layout = .short) {n : UInt16}
    (hn : f.proto.blob.shortAt? (f.ip + 1) = some n) :
    execute host f.ip op (m.atOffset (f.ip + 1)) =
      perform host ⟨f.ip, op, .short n, w⟩ (m.atOffset (f.ip + 3)) := by
  have hread : fetchShort (m.atOffset (f.ip + 1)) = .ok n (m.atOffset (f.ip + 3)) :=
    reads_fetchShort.eq_ok hframes hn
  cases op with
  | popN => exact proceed_bind hread _
  | localGet => exact proceed_bind hread _
  | localSet => exact proceed_bind hread _
  | argDefault => exact proceed_bind hread _
  | upvalueGet => exact proceed_bind hread _
  | upvalueSet => exact proceed_bind hread _
  | makeArray => exact proceed_bind hread _
  | makeDict => exact proceed_bind hread _
  | _ => cases hop

theorem execute_const (hop : op.layout = .const) {index : UInt16} {v : Value}
    (hindex : f.proto.blob.shortAt? (f.ip + 1) = some index)
    (hv : f.proto.blob.constant? index = some v) :
    execute host f.ip op (m.atOffset (f.ip + 1)) =
      perform host ⟨f.ip, op, .const index, w⟩ (m.atOffset (f.ip + 3)) := by
  have hread : fetchConstant (m.atOffset (f.ip + 1)) = .ok v (m.atOffset (f.ip + 3)) :=
    fetchConstant_eq hframes hindex hv
  have hsame (g : Value → Exec Unit) : proceed (fetchConstant >>= g) (m.atOffset (f.ip + 1)) =
      proceed (constant index >>= g) (m.atOffset (f.ip + 3)) := by
    rw [proceed_bind hread, proceed_bind (constant_eq hframes hv)]
  cases op with
  | pushConst => exact hsame _
  | globalDefine => exact hsame _
  | globalGet => exact hsame _
  | globalSet => exact hsame _
  | makeClass => exact hsame _
  | makeMethod => exact hsame _
  | getSuper => exact hsame _
  | propertyGet => exact hsame _
  | propertyGetSelf => exact hsame _
  | propertySet => exact hsame _
  | switch => exact hsame _
  | _ => cases hop

theorem execute_jumpForward (hop : op.layout = .jumpForward) {n : UInt16}
    (hn : f.proto.blob.shortAt? (f.ip + 1) = some n) :
    execute host f.ip op (m.atOffset (f.ip + 1)) =
      perform host ⟨f.ip, op, .jump n (Int.ofNat (f.ip + 3) + Int.ofNat n.toNat), w⟩
        (m.atOffset (f.ip + 3)) := by
  have hread : fetchShort (m.atOffset (f.ip + 1)) = .ok n (m.atOffset (f.ip + 3)) :=
    reads_fetchShort.eq_ok hframes hn
  have htarget : (Int.ofNat (f.ip + 3) + Int.ofNat n.toNat).toNat = f.ip + 3 + n.toNat := by
    simp only [Int.ofNat_eq_natCast]
    omega
  have hmoved := frames_atOffset hframes (f.ip + 3)
  cases op with
  | jump =>
    refine (proceed_bind hread _).trans ?_
    simp only [perform, htarget]
    unfold proceed
    rw [bind_of_ok (jumpBy_eq hmoved _), bind_of_ok (jumpTo_eq hmoved _)]
  | jumpIfFalse =>
    refine (proceed_bind hread _).trans ?_
    simp only [perform, htarget]
    unfold jumpIfFalse
    rcases pop_cases (m.atOffset (f.ip + 3)) with ⟨v, -, hok⟩ | herror
    · rw [proceed_bind hok, proceed_bind hok]
      let popped : Machine :=
        { m.atOffset (f.ip + 3) with stack := (m.atOffset (f.ip + 3)).stack.pop }
      have hpopped : popped.frames = { f with ip := f.ip + 3 } :: rest := hmoved
      have hget : (get : Exec Machine) popped = .ok popped popped := rfl
      rw [proceed_bind hget, proceed_bind hget]
      by_cases hfalsy : popped.heap.isFalsy v = true
      · rw [if_pos hfalsy, if_pos hfalsy]
        unfold proceed
        rw [bind_of_ok (jumpBy_eq hpopped _), bind_of_ok (jumpTo_eq hpopped _)]
      · rw [if_neg hfalsy, if_neg hfalsy]
    · unfold proceed
      rw [bind_assoc, bind_of_error herror, bind_assoc, bind_of_error herror]
  | _ => cases hop

theorem execute_jumpBackward (hop : op.layout = .jumpBackward) {n : UInt16}
    (hn : f.proto.blob.shortAt? (f.ip + 1) = some n) (hle : n.toNat ≤ f.ip + 3) :
    execute host f.ip op (m.atOffset (f.ip + 1)) =
      perform host ⟨f.ip, op, .jump n (Int.ofNat (f.ip + 3) - Int.ofNat n.toNat), w⟩
        (m.atOffset (f.ip + 3)) := by
  have hread : fetchShort (m.atOffset (f.ip + 1)) = .ok n (m.atOffset (f.ip + 3)) :=
    reads_fetchShort.eq_ok hframes hn
  have htarget : (Int.ofNat (f.ip + 3) - Int.ofNat n.toNat).toNat = f.ip + 3 - n.toNat := by
    simp only [Int.ofNat_eq_natCast]
    omega
  have hmoved := frames_atOffset hframes (f.ip + 3)
  cases op with
  | loop =>
    refine (proceed_bind hread _).trans ?_
    unfold jumpBack
    rw [proceed_bind (frame_eq hmoved), if_pos hle]
    simp only [perform, htarget]
  | _ => cases hop

theorem execute_tryRegion (hop : op.layout = .tryRegion) {type handler block : UInt16} {v : Value}
    (htype : f.proto.blob.shortAt? (f.ip + 1) = some type)
    (hhandler : f.proto.blob.shortAt? (f.ip + 3) = some handler)
    (hblock : f.proto.blob.shortAt? (f.ip + 5) = some block)
    (hv : f.proto.blob.constant? type = some v) :
    execute host f.ip op (m.atOffset (f.ip + 1)) =
      perform host ⟨f.ip, op, .tryRegion type handler block, w⟩ (m.atOffset (f.ip + 7)) := by
  cases op with
  | enterTry =>
    refine (proceed_bind (fetchConstant_eq hframes htype hv) _).trans ?_
    refine (proceed_bind (reads_fetchShort.eq_ok hframes hhandler) _).trans ?_
    refine (proceed_bind (reads_fetchShort.eq_ok hframes hblock) _).trans ?_
    have hconstant : constant type (m.atOffset (f.ip + 7)) = .ok v (m.atOffset (f.ip + 7)) :=
      constant_eq hframes hv
    exact (proceed_bind hconstant fun v => enterRegion v handler block).symm
  | _ => cases hop

theorem execute_invoke (hop : op.layout = .invoke) {name : UInt16} {n : UInt8} {v : Value}
    (hname : f.proto.blob.shortAt? (f.ip + 1) = some name)
    (hn : f.proto.blob.byteAt? (f.ip + 3) = some n)
    (hv : f.proto.blob.constant? name = some v) :
    execute host f.ip op (m.atOffset (f.ip + 1)) =
      perform host ⟨f.ip, op, .invoke name n, w⟩ (m.atOffset (f.ip + 4)) := by
  have hsame (g : Value → UInt8 → Exec Unit) :
      proceed (fetchConstant >>= fun v => fetchByte >>= g v) (m.atOffset (f.ip + 1)) =
        proceed (constant name >>= fun v => g v n) (m.atOffset (f.ip + 4)) := by
    rw [proceed_bind (fetchConstant_eq hframes hname hv),
      proceed_bind (reads_fetchByte.eq_ok hframes hn), proceed_bind (constant_eq hframes hv)]
  cases op with
  | invoke => exact hsame _
  | invokeSelf => exact hsame _
  | invokeSuper => exact hsame _
  | _ => cases hop

theorem execute_constByte (hop : op.layout = .constByte) {index : UInt16} {n : UInt8} {v : Value}
    (hindex : f.proto.blob.shortAt? (f.ip + 1) = some index)
    (hn : f.proto.blob.byteAt? (f.ip + 3) = some n)
    (hv : f.proto.blob.constant? index = some v) :
    execute host f.ip op (m.atOffset (f.ip + 1)) =
      perform host ⟨f.ip, op, .constByte index n, w⟩ (m.atOffset (f.ip + 4)) := by
  cases op with
  | defineProperty =>
    refine (proceed_bind (fetchConstant_eq hframes hindex hv) _).trans ?_
    refine (proceed_bind (reads_fetchByte.eq_ok hframes hn) _).trans ?_
    have hconstant : constant index (m.atOffset (f.ip + 4)) = .ok v (m.atOffset (f.ip + 4)) :=
      constant_eq hframes hv
    exact (proceed_bind hconstant fun v => defineProperty v (n != 0)).symm
  | _ => cases hop

end Layouts

/-! Closures. -/

theorem bind_congr_at {x y : Exec α} (h : x m = y m) (g : α → Exec β) :
    (x >>= g) m = (y >>= g) m := by
  have hbind (z : Exec α) : (z >>= g) m = EStateM.bind z g m := rfl
  rw [hbind, hbind, EStateM.bind, EStateM.bind, h]

theorem readCapture_eq_ok {c : Capture} (h : readCapture blob op offset = .ok c) :
    ∃ flag, blob.byteAt? offset = some flag ∧ blob.shortAt? (offset + 1) = some c.index ∧
      c.isLocal = (flag != 0) := by
  obtain ⟨flag, hflag, h⟩ := bind_eq_ok.1 h
  obtain ⟨index, hindex, h⟩ := bind_eq_ok.1 h
  obtain rfl := Except.ok.inj h
  exact ⟨flag, need_eq_ok.1 hflag, need_eq_ok.1 hindex, rfl⟩

theorem frames_of_captured {slot : Nat} {cell : Ref}
    (hcell : (modifyGet fun m => m.captureSlot slot : Exec Ref) m = .ok cell m') :
    m'.frames = m.frames := by
  obtain ⟨-, rfl⟩ := EStateM.Result.ok.inj hcell
  exact frames_captureSlot m slot

theorem frames_of_frameUpvalue {index : Nat} {cell : Ref} (hframes : m.frames = f :: rest)
    (hcell : frameUpvalue index m = .ok cell m') : m'.frames = m.frames := by
  rcases frameUpvalue_cases hframes index with ⟨c, r, -, -, hok⟩ | ⟨b, herror, -⟩
  · obtain ⟨-, rfl⟩ := EStateM.Result.ok.inj (hok.symm.trans hcell)
    rfl
  · exact absurd (herror.symm.trans hcell) nofun

/-- The cells found while the captures are read are those of the captures that were read. -/
theorem captureAll_eq (base : Nat) {count : Nat} {captures : List Capture}
    (hframes : m.frames = f :: rest)
    (hcaptures : readCaptures f.proto.blob op count f.ip = .ok captures) :
    captureAll base count m = captureEach base captures m := by
  induction count generalizing m f captures with
  | zero =>
    obtain rfl := Except.ok.inj hcaptures
    rfl
  | succ count ih =>
    obtain ⟨c, hc, hcaptures⟩ := bind_eq_ok.1 hcaptures
    obtain ⟨later, hlater, hcaptures⟩ := bind_eq_ok.1 hcaptures
    obtain rfl := Except.ok.inj hcaptures
    obtain ⟨flag, hflag, hindex, hlocal⟩ := readCapture_eq_ok hc
    have hsame := atOffset_self hframes
    have hbyte : fetchByte m = .ok flag (m.atOffset (f.ip + 1)) := by
      have hread := reads_fetchByte.eq_ok hframes hflag
      rwa [hsame] at hread
    have hshort : fetchShort (m.atOffset (f.ip + 1)) = .ok c.index (m.atOffset (f.ip + 3)) :=
      reads_fetchShort.eq_ok hframes hindex
    have hmoved := frames_atOffset hframes (f.ip + 3)
    -- Whichever way the first cell is found, the calls stay and the other captures follow.
    have hfirst (x : Exec Ref)
        (hx : ∀ cell q, x (m.atOffset (f.ip + 3)) = .ok cell q →
          q.frames = { f with ip := f.ip + 3 } :: rest) :
        (x >>= fun cell => captureAll base count >>= fun cells => pure (cell :: cells))
            (m.atOffset (f.ip + 3)) =
          (x >>= fun cell => captureEach base later >>= fun cells => pure (cell :: cells))
            (m.atOffset (f.ip + 3)) := by
      cases hcell : x (m.atOffset (f.ip + 3)) with
      | ok cell q =>
        rw [bind_of_ok hcell, bind_of_ok hcell]
        exact bind_congr_at (ih (hx cell q hcell) hlater) _
      | error s q => rw [bind_of_error hcell, bind_of_error hcell]
    unfold captureAll captureEach
    rw [bind_of_ok hbyte, bind_of_ok hshort, bind_of_ok (jumpBy_eq hframes 3), hlocal.symm]
    by_cases hl : c.isLocal = true
    · rw [if_pos hl, if_pos hl]
      exact hfirst _ fun cell q hcell => (frames_of_captured hcell).trans hmoved
    · rw [if_neg hl, if_neg hl]
      exact hfirst _ fun cell q hcell => (frames_of_frameUpvalue hmoved hcell).trans hmoved

/-- Finding the cells leaves the call behind the captures. -/
theorem frames_captureEach {base : Nat} {captures : List Capture} {cells : List Ref}
    (hframes : m.frames = f :: rest) (h : captureEach base captures m = .ok cells m') :
    m'.frames = { f with ip := f.ip + 3 * captures.length } :: rest := by
  induction captures generalizing m f cells with
  | nil =>
    obtain ⟨-, rfl⟩ := EStateM.Result.ok.inj h
    exact hframes
  | cons c later ih =>
    have hmoved := frames_atOffset hframes (f.ip + 3)
    have hwidth : f.ip + 3 * (c :: later).length = f.ip + 3 + 3 * later.length := by
      rw [List.length_cons]
      omega
    have hfirst (x : Exec Ref)
        (hx : ∀ cell q, x (m.atOffset (f.ip + 3)) = .ok cell q →
          q.frames = { f with ip := f.ip + 3 } :: rest)
        (h : (x >>= fun cell => captureEach base later >>= fun cells => pure (cell :: cells))
          (m.atOffset (f.ip + 3)) = .ok cells m') :
        m'.frames = { f with ip := f.ip + 3 * (c :: later).length } :: rest := by
      rw [hwidth]
      cases hcell : x (m.atOffset (f.ip + 3)) with
      | ok cell q =>
        rw [bind_of_ok hcell] at h
        cases hlater : captureEach base later q with
        | ok cells' q' =>
          rw [bind_of_ok hlater] at h
          obtain ⟨-, rfl⟩ := EStateM.Result.ok.inj h
          exact ih (hx cell q hcell) hlater
        | error s q' =>
          rw [bind_of_error hlater] at h
          cases h
      | error s q =>
        rw [bind_of_error hcell] at h
        cases h
    unfold captureEach at h
    rw [bind_of_ok (jumpBy_eq hframes 3)] at h
    by_cases hl : c.isLocal = true
    · rw [if_pos hl] at h
      exact hfirst _ (fun cell q hcell => (frames_of_captured hcell).trans hmoved) h
    · rw [if_neg hl] at h
      exact hfirst _ (fun cell q hcell => (frames_of_frameUpvalue hmoved hcell).trans hmoved) h

theorem captured?_eq_some {h : Heap} {v : Value} {count : Nat} (hcount : h.captured? v = some count) :
    ∃ r proto, v = .ref r ∧ h.get? r = some (.function proto) ∧ proto.captured = count := by
  unfold Heap.captured? at hcount
  split at hcount
  · rename_i proto hproto
    cases v with
    | ref r => exact ⟨r, proto, rfl, hproto, Option.some.inj hcount⟩
    | nil => cases hproto
    | bool b => cases hproto
    | number x => cases hproto
  · cases hcount

theorem execute_closure (hframes : m.frames = f :: rest) (hop : op.layout = .closure)
    {function : UInt16} {v : Value} {count w : Nat} {captures : List Capture}
    (hfunction : f.proto.blob.shortAt? (f.ip + 1) = some function)
    (hv : f.proto.blob.constant? function = some v) (hcount : m.heap.captured? v = some count)
    (hcaptures : readCaptures f.proto.blob op count (f.ip + 3) = .ok captures) :
    execute host f.ip op (m.atOffset (f.ip + 1)) =
      perform host ⟨f.ip, op, .closure function captures, w⟩ (m.atOffset (f.ip + 3)) := by
  cases op with
  | makeClosure =>
    obtain ⟨r, proto, rfl, hproto, rfl⟩ := captured?_eq_some hcount
    have hmoved := frames_atOffset hframes (f.ip + 3)
    have hconstant : constant function (m.atOffset (f.ip + 3)) = .ok (.ref r) _ :=
      constant_eq hframes hv
    have hcells : captureAll f.base proto.captured (m.atOffset (f.ip + 3)) =
        captureEach f.base captures (m.atOffset (f.ip + 3)) := captureAll_eq f.base hmoved hcaptures
    have hget : (m.atOffset (f.ip + 3)).heap.get? r = some (.function proto) := hproto
    refine (proceed_bind (fetchConstant_eq hframes hfunction hv) _).trans ?_
    refine Eq.trans ?_ (proceed_bind hconstant fun v => makeClosureOf v captures).symm
    apply bind_congr_at
    unfold makeClosureOf
    dsimp only
    unfold closeOver
    rw [get_bind, get_bind, hget]
    dsimp only
    rw [bind_of_ok (frame_eq hmoved), bind_of_ok (frame_eq hmoved)]
    exact bind_congr_at hcells _
  | _ => cases hop

end Machine

end ScriptMachine
