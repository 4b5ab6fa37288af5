import ScriptMachine.Proofs.Code.Operands
import ScriptMachine.Proofs.Code.Sufficiency
import ScriptMachine.Proofs.Machine.Activations

/-!
Running and decoding agree. Wherever the innermost call stands at an instruction of a checked
stream, a step does what the decoded instruction says with the operands that decoding has found, and
unless an exception is thrown the call goes on behind the instruction or at the target that decoding
has computed.
-/

namespace ScriptMachine

open Instruction

/-- The operations that go on elsewhere than behind themselves, or not at all. -/
def Opcode.steers : Opcode → Bool
  | jump | jumpIfFalse | loop | switch | popTry | ret | endFinally | halt => true
  | _ => false

namespace Machine

variable {host : Host} {m m' : Machine} {f : Frame} {rest : List Frame} {d : Instruction}

/-- A machine at an instruction of a checked stream. The innermost call goes with its closure and
its function, and regions and completions fit the calls. -/
structure Poised (m : Machine) (f : Frame) (rest : List Frame) (d : Instruction) : Prop where
  frames : m.frames = f :: rest
  quiet : m.heap.AtRest
  coherent : m.Coherent
  closure : ∃ c, m.heap.get? f.closure = some (.closure c) ∧
    m.heap.get? c.function = some (.function f.proto)
  accepted : m.heap.Accepted f.proto.blob
  begins : ∃ i ∈ m.heap.code f.proto.blob, i.offset = f.ip
  decoded : decode m.heap.captured? f.proto.blob f.ip = .ok d

/-- Where an instruction begins to work: behind its operand but for captures. -/
def readPast (m : Machine) (d : Instruction) : Machine := m.atOffset (d.offset + d.op.layout.width 0)

/-- Where the calls stand after an instruction that neither throws nor fails. -/
inductive Stands (m : Machine) (f : Frame) (rest : List Frame) (d : Instruction) :
    List Frame → Prop where
  | behind (hop : d.op.steers = false) : Stands m f rest d ({ f with ip := d.next } :: rest)
  /-- A call begins, and its caller stands behind the instruction. -/
  | called (hop : d.op.steers = false) {g : Frame} (hg : g.ip = 0) :
      Stands m f rest d (g :: { f with ip := d.next } :: rest)
  | jumped (hop : d.op = .jump ∨ d.op = .loop) {n : UInt16} {target : Nat}
      (hoperand : d.operand = .jump n target) :
      Stands m f rest d ({ f with ip := target } :: rest)
  /-- A jump that is taken if the popped value is falsy. -/
  | branched (hop : d.op = .jumpIfFalse) {n : UInt16} {target : Nat} {v : Value}
      (hoperand : d.operand = .jump n target) (hv : m.stack.back? = some v) :
      Stands m f rest d ({ f with ip := if m.heap.isFalsy v then target else d.next } :: rest)
  | selected (hop : d.op = .switch) {index : UInt16} {table v : Value} {s : SwitchTable}
      (hoperand : d.operand = .const index) (htable : f.proto.blob.constant? index = some table)
      (hs : m.heap.object? table = some (.switch s)) (hv : m.stack.back? = some v) :
      Stands m f rest d ({ f with ip := d.next + s.distance m.heap.pool v } :: rest)
  /-- The end of a region, which may have a finally block. -/
  | left (hop : d.op = .popTry) {region : Region} {older : List Region}
      (hregions : m.regions = region :: older) :
      Stands m f rest d ({ f with ip := region.finally?.getD d.next } :: rest)
  /-- A return, the end of a finally block or of the run. -/
  | ends (hop : d.op = .ret ∨ d.op = .endFinally ∨ d.op = .halt) (frames : List Frame) :
      Stands m f rest d frames

namespace Poised

/-! Before the instruction. -/

theorem sane (h : m.Poised f rest d) : Sane m.heap f.proto.blob (m.heap.code f.proto.blob) :=
  h.accepted.sane

theorem mem (h : m.Poised f rest d) : d ∈ m.heap.code f.proto.blob := by
  obtain ⟨i, hi, hoffset⟩ := h.begins
  have hdecode := h.sane.streams.decode_eq hi
  rw [hoffset, h.decoded] at hdecode
  exact Except.ok.inj hdecode ▸ hi

theorem offset (h : m.Poised f rest d) : d.offset = f.ip := (decoded_of_decode h.decoded).1

theorem opcode (h : m.Poised f rest d) : m.opcode? = some d.op := by
  rw [opcode?_eq h.frames, ← h.offset]
  exact (decoded_of_decode h.decoded).2.op

/-- The constant that an instruction refers to is there. -/
theorem exists_constant (h : m.Poised f rest d) {index : UInt16} {e : Validation.Expected}
    (hexpected : Validation.expected? d = some (index, e)) :
    ∃ v, f.proto.blob.constant? index = some v := by
  obtain ⟨v, hv, -⟩ := h.sane.constants d h.mem index e hexpected
  exact ⟨v, hv⟩

/-- A collection keeps what the stream needs. -/
theorem collectIfDue (h : m.Poised f rest d) : m.collectIfDue.Poised f rest d := by
  unfold Machine.collectIfDue
  split
  · obtain ⟨c, hc, hfunction⟩ := h.closure
    have hcollected := h.quiet.collected m.roots
    have hp := persists_collected hcollected
    have hmem : f ∈ m.frames := h.frames ▸ List.mem_cons_self
    have hclosure : m.heap.Reachable m.roots f.closure := .root (closure_mem_roots hmem)
    have hreached : m.heap.Reachable m.roots c.function := hclosure.step hc List.mem_cons_self
    have hneeds (s : Ref) (hs : m.heap.Needs f.proto.blob s) : m.heap.Reachable m.roots s :=
      hs.reachable hreached hfunction
    have hcode : m.collect.2.heap.code f.proto.blob = m.heap.code f.proto.blob :=
      h.accepted.code_eq hp hneeds
    have hagrees : Agrees f.proto.blob m.heap.captured? m.collect.2.heap.captured? :=
      fun v hv n hn => hp.captured? (fun r hr => hneeds r (.constant hv hr)) hn
    refine ⟨h.frames, hcollected.rest, h.coherent, ?_, h.accepted.persist hp hneeds, ?_, ?_⟩
    · exact ⟨c, hp.fixed _ _ hclosure hc rfl, hp.fixed _ _ hreached hfunction rfl⟩
    · rw [hcode]
      exact h.begins
    · exact decode_of_agrees hagrees h.decoded
  · exact h

/-! The instruction. -/

/-- Reading the operand in the stream comes to taking it as decoded. -/
theorem execute_eq (h : m.Poised f rest d) :
    execute host f.ip d.op (m.atOffset (f.ip + 1)) = perform host d (m.readPast d) := by
  have hframes := h.frames
  have hconstant {index : UInt16} {e : Validation.Expected} :
      Validation.expected? d = some (index, e) → _ := h.exists_constant
  have hjumps := h.sane.jumps d h.mem
  obtain ⟨hoffset, hdecoded⟩ := decoded_of_decode h.decoded
  have hcaptures := captures_of_decode h.decoded
  obtain ⟨count, hholds, -⟩ := hdecoded.operand
  obtain ⟨offset, op, operand, w⟩ := d
  obtain rfl : offset = f.ip := hoffset
  unfold readPast
  dsimp only at hholds hcaptures hjumps ⊢
  generalize hlayout : op.layout = layout at hholds
  cases hholds with
  | none => cases op <;> rfl
  | byte hn => exact execute_byte hframes hlayout hn
  | short hn => exact execute_short hframes hlayout hn
  | const hindex =>
    obtain ⟨v, hv⟩ : ∃ v, f.proto.blob.constant? _ = some v := by
      cases op <;> exact hconstant rfl
    exact execute_const hframes hlayout hindex hv
  | jumpForward hn => exact execute_jumpForward hframes hlayout hn
  | jumpBackward hn =>
    obtain ⟨hpos, -⟩ := hjumps _ _ rfl
    simp only [Int.ofNat_eq_natCast] at hpos
    exact execute_jumpBackward hframes hlayout hn (by omega)
  | tryRegion htype hhandler hblock =>
    obtain ⟨v, hv⟩ := hconstant rfl
    exact execute_tryRegion hframes hlayout htype hhandler hblock hv
  | invoke hname hn =>
    obtain ⟨v, hv⟩ := hconstant rfl
    exact execute_invoke hframes hlayout hname hn hv
  | constByte hindex hn =>
    obtain ⟨v, hv⟩ := hconstant rfl
    exact execute_constByte hframes hlayout hindex hn hv
  | closure =>
    obtain ⟨function, captures, v, count, hoperand, hfunction, hv, hcount, hread, -⟩ :=
      hcaptures hlayout
    rw [hoperand]
    exact execute_closure hframes hlayout hfunction hv hcount hread

/-- An instruction is carried out as it was decoded. -/
theorem instruction_eq (h : m.Poised f rest d) :
    instruction host m = throwing none (perform host d) (m.readPast d) := by
  rw [Machine.instruction_eq h.frames h.opcode]
  unfold throwing
  rw [h.execute_eq]

end Poised

/-! After the instruction. -/

theorem proceed_eq_ok {x : Exec Unit} {e : Option Ending} (h : proceed x m = .ok e m') :
    e = none ∧ x m = .ok () m' := by
  unfold proceed at h
  cases hx : x m with
  | ok a q =>
    rw [bind_of_ok hx] at h
    obtain ⟨rfl, rfl⟩ := EStateM.Result.ok.inj h
    exact ⟨rfl, rfl⟩
  | error s q =>
    rw [bind_of_error hx] at h
    cases h

/-- A closure that is made leaves its call behind the captures. -/
theorem frames_makeClosureOf {function : Value} {captures : List Capture}
    (hframes : m.frames = f :: rest) (h : makeClosureOf function captures m = .ok () m') :
    m'.frames = { f with ip := f.ip + 3 * captures.length } :: rest := by
  cases function with
  | ref r =>
    unfold makeClosureOf at h
    dsimp only at h
    rw [get_bind] at h
    cases hget : m.heap.get? r with
    | none =>
      rw [hget] at h
      cases h
    | some o =>
      rw [hget] at h
      cases o with
      | function proto =>
        dsimp only at h
        rw [bind_of_ok (frame_eq hframes)] at h
        cases hcells : captureEach f.base captures m with
        | ok cells q =>
          rw [bind_of_ok hcells] at h
          obtain ⟨-, rfl⟩ := EStateM.Result.ok.inj h
          have hcalls := frames_captureEach hframes hcells
          exact hcalls
        | error s q =>
          rw [bind_of_error hcells] at h
          cases h
      | _ => cases h
  | nil => cases h
  | bool b => cases h
  | number x => cases h

theorem frames_enterRegion {type : Value} {handler block : UInt16}
    (h : enterRegion type handler block m = .ok () m') : m'.frames = m.frames := by
  unfold enterRegion at h
  rw [get_bind] at h
  split at h
  · cases h
  · obtain ⟨-, rfl⟩ := EStateM.Result.ok.inj h
    rfl

theorem frames_popTry (hframes : m.frames = f :: rest) (h : popTry m = .ok () m') :
    ∃ region older, m.regions = region :: older ∧
      m'.frames = { f with ip := region.finally?.getD f.ip } :: rest := by
  unfold popTry at h
  rw [get_bind] at h
  cases hregions : m.regions with
  | nil =>
    rw [hregions] at h
    cases h
  | cons region older =>
    refine ⟨region, older, rfl, ?_⟩
    rw [hregions] at h
    let left : Machine := { m with regions := older }
    have hleft : left.frames = f :: rest := hframes
    dsimp only at h
    rw [set_bind] at h
    cases hfinally : region.finally? with
    | none =>
      rw [hfinally] at h
      obtain ⟨-, rfl⟩ := EStateM.Result.ok.inj h
      exact hframes
    | some block =>
      rw [hfinally] at h
      let pending : Pending :=
        { tryDepth := older.length, frameDepth := m.frames.length, completion := .resume f.ip }
      let pushed : Machine := { left with completions := pending :: m.completions }
      have hpushed : pushed.frames = f :: rest := hframes
      have hpush : pushCompletion (.resume f.ip) left = .ok () pushed := rfl
      dsimp only at h
      rw [bind_of_ok (frame_eq hleft), bind_of_ok hpush, jumpTo_eq hpushed] at h
      obtain ⟨-, rfl⟩ := EStateM.Result.ok.inj h
      exact frames_atOffset hpushed block

namespace Poised

variable {e : Option Ending}

theorem frames_readPast (h : m.Poised f rest d) :
    (m.readPast d).frames = { f with ip := f.ip + d.op.layout.width 0 } :: rest := by
  unfold readPast
  rw [h.offset]
  exact frames_atOffset h.frames _

theorem next_eq (h : m.Poised f rest d) (hlayout : d.op.layout ≠ .closure) :
    d.next = f.ip + d.op.layout.width 0 := by
  unfold Instruction.next
  rw [h.offset, (decoded_of_decode h.decoded).2.width_eq hlayout]

/-- Operations that neither jump nor return and leave closures and regions alone. -/
theorem stands_plain (hdiscreet : host.Discreet) (h : m.Poised f rest d)
    (hplain : d.op.isPlain = true) (hok : perform host d (m.readPast d) = .ok e m') :
    m.Stands f rest d m'.frames := by
  have hsteers : d.op.steers = false := by
    revert hplain
    cases d.op <;> decide
  have hlayout : d.op.layout ≠ .closure := by
    revert hplain
    cases d.op <;> decide
  have hwidth : f.ip + 1 + (d.op.layout.width 0 - 1) = d.next := by
    have hpos : 1 ≤ d.op.layout.width 0 := by cases d.op.layout <;> decide
    rw [h.next_eq hlayout]
    omega
  rcases performs_execute f.ip hplain _ _ _ (frames_atOffset h.frames (f.ip + 1)) with
    ⟨-, hcarried⟩ | ⟨-, ip, offset, x, herror⟩
  · rw [h.execute_eq, hok] at hcarried
    dsimp only at hcarried
    rw [atOffset_atOffset, hwidth] at hcarried
    obtain ⟨-, hquiet | ⟨base, q, q', r, c, hquiet, -, -, hbinds, rfl⟩⟩ := hcarried
    · rw [hquiet.frames_eq hdiscreet h.frames]
      exact .behind hsteers
    · have hbound : Quiet host (m.atOffset d.next) q' := hquiet.trans hbinds.quiet
      have hcaller := hbound.frames_eq hdiscreet h.frames
      show m.Stands f rest d (_ :: q'.frames)
      rw [hcaller]
      exact .called hsteers rfl
  · rw [h.execute_eq, hok] at herror
    cases herror

theorem stands_jump (h : m.Poised f rest d) (hop : d.op = .jump ∨ d.op = .loop) {n : UInt16}
    {target : Int} (hoperand : d.operand = .jump n target)
    (hok : perform host d (m.readPast d) = .ok e m') : m.Stands f rest d m'.frames := by
  obtain ⟨hpos, -⟩ := h.sane.jumps d h.mem n target hoperand
  obtain ⟨ip, rfl⟩ := Int.eq_ofNat_of_zero_le hpos
  have hperform : perform host d = proceed (jumpTo ip) := by
    unfold perform
    rcases hop with hop | hop <;> simp only [hop, hoperand, Int.toNat_natCast]
  rw [hperform] at hok
  obtain ⟨-, hjump⟩ := proceed_eq_ok hok
  rw [jumpTo_eq h.frames_readPast] at hjump
  obtain ⟨-, rfl⟩ := EStateM.Result.ok.inj hjump
  rw [frames_atOffset h.frames_readPast]
  exact .jumped hop hoperand

theorem stands_jumpIfFalse (h : m.Poised f rest d) (hop : d.op = .jumpIfFalse) {n : UInt16}
    {target : Int} (hoperand : d.operand = .jump n target)
    (hok : perform host d (m.readPast d) = .ok e m') : m.Stands f rest d m'.frames := by
  obtain ⟨hpos, -⟩ := h.sane.jumps d h.mem n target hoperand
  obtain ⟨ip, rfl⟩ := Int.eq_ofNat_of_zero_le hpos
  have hperform : perform host d = proceed (pop >>= fun v => get >>= fun q =>
      if q.heap.isFalsy v = true then jumpTo ip else pure ()) := by
    unfold perform
    simp only [hop, hoperand, Int.toNat_natCast]
  rw [hperform] at hok
  obtain ⟨-, hbranch⟩ := proceed_eq_ok hok
  rcases pop_cases (m.readPast d) with ⟨v, hv, hpop⟩ | herror
  · rw [bind_of_ok hpop, get_bind] at hbranch
    let popped : Machine := { m.readPast d with stack := (m.readPast d).stack.pop }
    have hpopped : popped.frames = _ := h.frames_readPast
    have hnext : d.next = f.ip + d.op.layout.width 0 := h.next_eq (by rw [hop]; decide)
    have hstands : m.Stands f rest d _ := .branched hop hoperand hv
    by_cases hfalsy : m.heap.isFalsy v = true
    · rw [if_pos hfalsy] at hstands
      have htaken : jumpTo ip popped = .ok () m' := (if_pos hfalsy ▸ hbranch :)
      rw [jumpTo_eq hpopped] at htaken
      obtain ⟨-, rfl⟩ := EStateM.Result.ok.inj htaken
      rw [frames_atOffset hpopped]
      exact hstands
    · rw [if_neg hfalsy, hnext] at hstands
      have hpassed : (pure () : Exec Unit) popped = .ok () m' := (if_neg hfalsy ▸ hbranch :)
      obtain ⟨-, rfl⟩ := EStateM.Result.ok.inj hpassed
      rw [hpopped]
      exact hstands
  · rw [bind_of_error herror] at hbranch
    cases hbranch

theorem stands_switch (h : m.Poised f rest d) (hop : d.op = .switch) {index : UInt16}
    (hoperand : d.operand = .const index) (hok : perform host d (m.readPast d) = .ok e m') :
    m.Stands f rest d m'.frames := by
  obtain ⟨table, htable⟩ : ∃ v, f.proto.blob.constant? index = some v := by
    have hexpected : Validation.expected? d = some (index, .switch) := by
      unfold Validation.expected?
      rw [hoperand, hop]
    exact h.exists_constant hexpected
  have hperform : perform host d = proceed (constant index >>= switchOn) := by
    unfold perform
    simp only [hop, hoperand]
  have hread : constant index (m.readPast d) = .ok table (m.readPast d) :=
    constant_eq h.frames htable
  have hnext : d.next = f.ip + d.op.layout.width 0 := h.next_eq (by rw [hop]; decide)
  rw [hperform, proceed_bind hread] at hok
  obtain ⟨-, hswitch⟩ := proceed_eq_ok hok
  unfold switchOn at hswitch
  rcases pop_cases (m.readPast d) with ⟨v, hv, hpop⟩ | herror
  · let popped : Machine := { m.readPast d with stack := (m.readPast d).stack.pop }
    have hpopped : popped.frames = _ := h.frames_readPast
    rw [bind_of_ok hpop] at hswitch
    unfold jumpToCase at hswitch
    rw [get_bind] at hswitch
    cases hobject : m.heap.object? table with
    | none =>
      have hsame : popped.heap.object? table = none := hobject
      rw [hsame] at hswitch
      cases hswitch
    | some o =>
      have hsame : popped.heap.object? table = some o := hobject
      rw [hsame] at hswitch
      cases o with
      | switch s =>
        have hjump : jumpBy (s.distance m.heap.pool v) popped = .ok () m' := hswitch
        rw [jumpBy_eq hpopped] at hjump
        obtain ⟨-, rfl⟩ := EStateM.Result.ok.inj hjump
        have hstands : m.Stands f rest d _ := .selected hop hoperand htable hobject hv
        rw [hnext] at hstands
        rw [frames_atOffset hpopped]
        exact hstands
      | _ => cases hswitch
  · rw [bind_of_error herror] at hswitch
    cases hswitch

theorem stands_makeClosure (h : m.Poised f rest d) (hop : d.op = .makeClosure)
    (hok : perform host d (m.readPast d) = .ok e m') : m.Stands f rest d m'.frames := by
  have hlayout : d.op.layout = .closure := by rw [hop]; rfl
  obtain ⟨function, captures, v, count, hoperand, -, hv, -, -, hlength⟩ :=
    captures_of_decode h.decoded hlayout
  have hperform : perform host d =
      proceed (constant function >>= fun v => makeClosureOf v captures) := by
    unfold perform
    simp only [hop, hoperand]
  have hconstant : constant function (m.readPast d) = .ok v (m.readPast d) := constant_eq h.frames hv
  rw [hperform, proceed_bind hconstant] at hok
  obtain ⟨-, hmade⟩ := proceed_eq_ok hok
  have hbehind : f.ip + 3 + 3 * captures.length = d.next := by
    unfold Instruction.next
    rw [h.offset]
    omega
  have hwidth : d.op.layout.width 0 = 3 := by rw [hop]; rfl
  have hcalls := frames_makeClosureOf h.frames_readPast hmade
  rw [hwidth] at hcalls
  dsimp only at hcalls
  rw [hcalls, hbehind]
  exact .behind (by rw [hop]; rfl)

theorem stands_enterTry (h : m.Poised f rest d) (hop : d.op = .enterTry)
    {type handler block : UInt16} (hoperand : d.operand = .tryRegion type handler block)
    (hok : perform host d (m.readPast d) = .ok e m') : m.Stands f rest d m'.frames := by
  obtain ⟨v, hv⟩ : ∃ v, f.proto.blob.constant? type = some v := by
    have hexpected : Validation.expected? d = some (type, .nameOrNil) := by
      unfold Validation.expected?
      rw [hoperand]
    exact h.exists_constant hexpected
  have hperform : perform host d =
      proceed (constant type >>= fun v => enterRegion v handler block) := by
    unfold perform
    simp only [hop, hoperand]
  have hread : constant type (m.readPast d) = .ok v (m.readPast d) := constant_eq h.frames hv
  have hnext : d.next = f.ip + d.op.layout.width 0 := h.next_eq (by rw [hop]; decide)
  rw [hperform, proceed_bind hread] at hok
  obtain ⟨-, hentered⟩ := proceed_eq_ok hok
  rw [frames_enterRegion hentered, h.frames_readPast, ← hnext]
  exact .behind (by rw [hop]; rfl)

theorem stands_popTry (h : m.Poised f rest d) (hop : d.op = .popTry)
    (hok : perform host d (m.readPast d) = .ok e m') : m.Stands f rest d m'.frames := by
  have hperform : perform host d = proceed popTry := by
    unfold perform
    rw [hop]
    rfl
  have hnext : d.next = f.ip + d.op.layout.width 0 := h.next_eq (by rw [hop]; decide)
  rw [hperform] at hok
  obtain ⟨-, hpopped⟩ := proceed_eq_ok hok
  obtain ⟨region, older, hregions, hcalls⟩ := frames_popTry h.frames_readPast hpopped
  rw [hcalls]
  dsimp only
  rw [← hnext]
  exact .left hop hregions

/-- An instruction that neither throws nor fails leaves the calls where its decoding says. -/
theorem stands (hdiscreet : host.Discreet) (h : m.Poised f rest d)
    (hok : perform host d (m.readPast d) = .ok e m') : m.Stands f rest d m'.frames := by
  by_cases hplain : d.op.isPlain = true
  · exact h.stands_plain hdiscreet hplain hok
  obtain ⟨count, hholds, -⟩ := (decoded_of_decode h.decoded).2.operand
  cases hop : d.op with
  | jump =>
    rw [hop] at hholds
    generalize hoperand : d.operand = operand at hholds
    cases hholds with
    | jumpForward => exact h.stands_jump (Or.inl hop) hoperand hok
  | jumpIfFalse =>
    rw [hop] at hholds
    generalize hoperand : d.operand = operand at hholds
    cases hholds with
    | jumpForward => exact h.stands_jumpIfFalse hop hoperand hok
  | loop =>
    rw [hop] at hholds
    generalize hoperand : d.operand = operand at hholds
    cases hholds with
    | jumpBackward => exact h.stands_jump (Or.inr hop) hoperand hok
  | switch =>
    rw [hop] at hholds
    generalize hoperand : d.operand = operand at hholds
    cases hholds with
    | const => exact h.stands_switch hop hoperand hok
  | makeClosure => exact h.stands_makeClosure hop hok
  | enterTry =>
    rw [hop] at hholds
    generalize hoperand : d.operand = operand at hholds
    cases hholds with
    | tryRegion => exact h.stands_enterTry hop hoperand hok
  | popTry => exact h.stands_popTry hop hok
  | ret => exact .ends (Or.inl hop) _
  | endFinally => exact .ends (Or.inr (Or.inl hop)) _
  | halt => exact .ends (Or.inr (Or.inr hop)) _
  | _ => exact absurd (by rw [hop]; rfl) hplain

end Poised

/-! Calls that return. -/

/-- Calls that have begun stay below newer ones until one of them comes to an end. -/
theorem Turn.suffix_frames (hdiscreet : host.Discreet) (hturn : Turn host m m')
    {callers : List Frame} (hbelow : callers <:+ m.frames) (hunder : callers.length < m.frames.length)
    (hdeep : callers.length < m'.frames.length) : callers <:+ m'.frames := by
  rcases hturn.frames_cases hdiscreet with ⟨k, ip, -, hframes⟩ | ⟨f, rest, op, g, hframes, -, hnext⟩
  · rw [hframes, List.length_modifyHead] at hdeep
    rw [hframes]
    have hdropped : callers <:+ m.frames.drop k := by
      refine List.suffix_of_suffix_length_le hbelow (List.drop_suffix k m.frames) ?_
      omega
    cases hdrop : m.frames.drop k with
    | nil =>
      rw [hdrop] at hdeep
      cases hdeep
    | cons f rest =>
      rw [hdrop] at hdropped hdeep
      rcases List.suffix_cons_iff.1 hdropped with hall | hrest
      · rw [hall] at hdeep
        omega
      · exact hrest.trans (List.suffix_cons _ rest)
  · rw [hframes] at hbelow hunder
    rw [hnext]
    rcases List.suffix_cons_iff.1 hbelow with hall | hrest
    · rw [hall] at hunder
      omega
    · exact (hrest.trans (List.suffix_cons _ rest)).trans (List.suffix_cons _ _)

/-- A return that takes calls off takes off the innermost one. -/
theorem frames_of_returning {v : Value} {cs : List Pending} (hm : m.Coherent)
    (hframes : m.frames = f :: rest) (hreturning : m.Returning f v cs)
    (hstep : instruction host m = .ok none m') (hshorter : m'.frames.length < m.frames.length) :
    m'.frames = rest := by
  obtain ⟨ip, hfinish⟩ := finishReturn_of_returning hm hframes hreturning hstep
  let p := m.departing.steer (m.atOffset ip).frames m.regions cs
  have hmoved : p.frames = { f with ip } :: rest := frames_atOffset hframes ip
  have hretires : Retires { f with ip } rest v p (finishReturn v p) :=
    retires_returnThrough hmoved v p.frames.length p.regions
  rw [hfinish] at hretires
  rcases hretires with ⟨-, -, -, hsame⟩ | ⟨-, hrest⟩
  · have hlength : p.frames.length = m.frames.length := length_frames_atOffset m ip
    omega
  · exact hrest

/-- A run in which the calls stay above a depth up to a return that reaches it. -/
structure Concludes (host : Host) (ms : Nat → Machine) (n depth : Nat) : Prop where
  follows : Follows host ms (n + 1)
  deep : ∀ t ≤ n, depth < (ms t).frames.length
  returning : ∃ g v cs, (ms n).frames.head? = some g ∧ (ms n).Returning g v cs
  back : (ms (n + 1)).frames.length = depth

theorem Concludes.frames_eq (hdiscreet : host.Discreet) {ms : Nat → Machine} {n : Nat}
    {g : Frame} {callers : List Frame} (h : Concludes host ms n callers.length)
    (hm : (ms 0).Coherent) (hcalled : (ms 0).frames = g :: callers) :
    (ms (n + 1)).frames = callers := by
  have hunder : ∀ t ≤ n, (ms t).Coherent ∧ callers <:+ (ms t).frames := by
    intro t ht
    induction t with
    | zero => exact ⟨hm, hcalled ▸ List.suffix_cons g callers⟩
    | succ t ih =>
      obtain ⟨hcoherent, hbelow⟩ := ih (by omega)
      have hturn := turn_of_step hdiscreet hcoherent (h.follows t (by omega))
      have hdue : (ms t).collectIfDue.Coherent := (undisturbed_collectIfDue _).coherent hcoherent
      refine ⟨hturn.coherent hdiscreet hdue, ?_⟩
      have hdeep := h.deep t (by omega)
      rw [← frames_collectIfDue] at hbelow hdeep
      exact hturn.suffix_frames hdiscreet hbelow hdeep (h.deep (t + 1) ht)
  obtain ⟨hcoherent, hbelow⟩ := hunder n (le_refl n)
  obtain ⟨f, v, cs, hhead, hreturning⟩ := h.returning
  obtain ⟨rest, hframes⟩ := List.head?_eq_some_iff.1 hhead
  have hstep : instruction host (ms n).collectIfDue = .ok none (ms (n + 1)) := by
    have hstep := h.follows n (Nat.lt_succ_self n)
    unfold step at hstep
    rwa [modify_bind] at hstep
  have hdue : (ms n).collectIfDue.Coherent := (undisturbed_collectIfDue _).coherent hcoherent
  have hframes' : (ms n).collectIfDue.frames = f :: rest := (frames_collectIfDue _).trans hframes
  have hreturning' : (ms n).collectIfDue.Returning f v cs :=
    returning_of_frames hreturning (opcode?_collectIfDue _) (stack_collectIfDue _)
      (completions_collectIfDue _) (frames_collectIfDue _)
  have hshorter : (ms (n + 1)).frames.length < (ms n).collectIfDue.frames.length := by
    rw [frames_collectIfDue, h.back]
    exact h.deep n (le_refl n)
  have hback := frames_of_returning hdue hframes' hreturning' hstep hshorter
  rw [hframes] at hbelow
  have hlength := h.back
  rw [hback] at hlength ⊢
  rcases List.suffix_cons_iff.1 hbelow with hall | hrest
  · rw [hall, List.length_cons] at hlength
    omega
  · exact (hrest.eq_of_length hlength.symm).symm

/-! The main result. -/

/-- A run that keeps to its streams stands at instructions of checked streams. -/
theorem Secure.poised (hm : m.Secure) (hframes : m.frames = f :: rest)
    (hdecode : decode m.heap.captured? f.proto.blob f.ip = .ok d) : m.Poised f rest d := by
  have hmem : f ∈ m.frames := hframes ▸ List.mem_cons_self
  obtain ⟨c, hc, hproto⟩ := hm.trusted.frames f hmem
  have hfunction := (hm.trusted.closures _ c hc).1
  rw [hproto] at hfunction
  refine ⟨hframes, hm.trusted.rest, hm.coherent, ⟨c, hc, hfunction⟩, hm.trusted.accepted hmem, ?_,
    hdecode⟩
  obtain ⟨hoffset, hdecoded⟩ := decoded_of_decode hdecode
  rcases hm.aligned.calls f hmem with hend | hbegins
  · have hwidth := hdecoded.width_pos
    have hfits := hdecoded.fits
    unfold Instruction.next at hfits
    omega
  · exact hbegins

/-- What an instruction decodes to tells what a step does. -/
structure Agreement (host : Host) (m : Machine) (f : Frame) (rest : List Frame) (d : Instruction) :
    Prop where
  /-- The step takes the operands that decoding has found. -/
  same : step host m = throwing none (perform host d) (m.collectIfDue.readPast d)
  /-- Unless it throws or fails, the calls stand where the decoding says. -/
  stands : ∀ e m', perform host d (m.collectIfDue.readPast d) = .ok e m' →
    step host m = .ok e m' ∧ m.collectIfDue.Stands f rest d m'.frames
  /-- A call that has begun returns behind the instruction. -/
  resumes : ∀ ms n g, step host m = .ok none (ms 0) →
    (ms 0).frames = g :: { f with ip := d.next } :: rest → Concludes host ms n (rest.length + 1) →
      (ms (n + 1)).frames = { f with ip := d.next } :: rest

/-- Wherever a call stands at an instruction of a checked stream, running the instruction and
decoding it agree. -/
theorem step_agrees_with_decoding (hdiscreet : host.Discreet) (h : m.Poised f rest d) :
    Agreement host m f rest d := by
  have hdue := h.collectIfDue
  have hsame : step host m = throwing none (perform host d) (m.collectIfDue.readPast d) := by
    unfold step
    rw [modify_bind]
    exact hdue.instruction_eq
  refine ⟨hsame, fun e m' hok => ⟨?_, hdue.stands hdiscreet hok⟩, fun ms n g hstep hcalled hrun => ?_⟩
  · rw [hsame]
    unfold throwing
    rw [hok]
  · have hturn := turn_of_step hdiscreet h.coherent hstep
    exact hrun.frames_eq hdiscreet (hturn.coherent hdiscreet hdue.coherent) hcalled

/-- The closure of the setter captures the variable in slot one. -/
theorem step_agrees_with_decoding_setterScript :
    let f : Frame := { closure := .object 2, proto := .script setterScript, ip := 1, base := 0 }
    let d : Instruction := ⟨1, .makeClosure, .closure 0 [⟨true, 1⟩], 6⟩
    (setterStates 1).Poised f [] d ∧ Agreement .idle (setterStates 1) f [] d := by
  have htrusted : withSetter.Trusted := (trusted_bare.alloc (o := .function setter) nofun).trusted
  have hsettled : withSetter.Settled := fun _ => ⟨rfl, rfl, rfl⟩
  have hstart : (setterStates 0).Secure :=
    htrusted.secure_entered Host.discreet_idle rfl hsettled (by cbv)
  have hfollows : Follows .idle setterStates 1 :=
    follows_states (show ∀ t < 1, _ by decide +kernel)
  have hsecure : (setterStates 1).Secure :=
    hfollows.secure Host.discreet_idle Host.modest_idle (.script rfl hsettled _) hstart
      (by decide +kernel) (le_refl 1)
  have hpoised : (setterStates 1).Poised _ [] _ := hsecure.poised (by cbv) (by cbv)
  exact ⟨hpoised, step_agrees_with_decoding Host.discreet_idle hpoised⟩

end Machine

end ScriptMachine
