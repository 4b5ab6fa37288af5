import ScriptMachine.Proofs.Machine.Exits

/-!
What one instruction does. An instruction that lets the run go on makes one of a few turns: the
innermost call moves on, a closure is made, a call begins, a region is entered, a region is left by
its end, a finally block ends, a call returns, or an exception is thrown. Each turn says what
becomes of the calls, the regions and the completions; besides, the machine changes quietly.

The instruction stream or one of its constants is blamed only if the next instruction is not
runnable as it stands.
-/

namespace ScriptMachine.Machine

variable {host : Host} {m m' : Machine} {f : Frame} {rest : List Frame}

/-- The operation that comes next. -/
def opcode? (m : Machine) : Option Opcode :=
  m.frames.head?.bind fun f => (f.proto.blob.byteAt? f.ip).bind Opcode.ofByte?

theorem opcode?_eq (hframes : m.frames = f :: rest) :
    m.opcode? = (f.proto.blob.byteAt? f.ip).bind Opcode.ofByte? := by
  unfold opcode?
  rw [hframes]
  rfl

theorem exists_frame_of_opcode {op : Opcode} (hop : m.opcode? = some op) :
    ∃ f rest, m.frames = f :: rest := by
  unfold opcode? at hop
  cases hframes : m.frames with
  | nil =>
    rw [hframes] at hop
    cases hop
  | cons f rest => exact ⟨f, rest, rfl⟩

theorem opcode?_eq_none (hframes : m.frames = f :: rest) (hend : f.proto.blob.size ≤ f.ip) :
    m.opcode? = none := by
  have hnone : f.proto.blob.byteAt? f.ip = none := by
    rw [Blob.byteAt?, Array.getElem?_eq_none hend, Option.map_none]
  rw [opcode?_eq hframes, hnone, Option.bind_none]

/-- What the next instruction is, with a call under way. -/
inductive Fetched (host : Host) (m : Machine) (f : Frame) :
    EStateM.Result Signal Machine (Option Ending) → Prop where
  /-- The end of the stream returns nil. -/
  | atEnd (hend : f.proto.blob.size ≤ f.ip) : Fetched host m f (maybeReturn (finishReturn .nil) m)
  /-- A byte that stands for no operation. -/
  | unknown {offset : Nat} {d : Defect} (hend : f.ip < f.proto.blob.size)
      (hop : m.opcode? = none) :
      Fetched host m f (.error (.fault (.malformed offset d)) (m.atOffset (f.ip + 1)))
  /-- The operation is carried out behind its byte, and what it raises is thrown. -/
  | operation {op : Opcode} (hop : m.opcode? = some op) :
      Fetched host m f (throwing none (execute host f.ip op) (m.atOffset (f.ip + 1)))

theorem fetched_instruction (host : Host) (hframes : m.frames = f :: rest) :
    Fetched host m f (instruction host m) := by
  unfold instruction
  rw [bind_of_ok (frame_eq hframes)]
  by_cases hend : f.proto.blob.size ≤ f.ip
  · rw [if_pos hend]
    exact .atEnd hend
  rw [if_neg hend]
  have hopcode := opcode?_eq hframes
  rcases reads_fetchByte m f rest hframes with ⟨byte, hbyte, hok⟩ | ⟨hnone, -⟩
  · rw [hbyte, Option.bind_some] at hopcode
    rw [bind_of_ok hok]
    cases hop : Opcode.ofByte? byte with
    | some op => exact .operation (hopcode.trans hop)
    | none => exact .unknown (Nat.lt_of_not_le hend) (hopcode.trans hop)
  · obtain ⟨byte, hbyte⟩ := f.proto.blob.byteAt?_eq_some f.ip (Nat.lt_of_not_le hend)
    rw [hbyte] at hnone
    cases hnone

theorem instruction_eq (hframes : m.frames = f :: rest) {op : Opcode} (hop : m.opcode? = some op) :
    instruction host m = throwing none (execute host f.ip op) (m.atOffset (f.ip + 1)) := by
  have hfetched := fetched_instruction host hframes
  generalize instruction host m = result at hfetched
  cases hfetched with
  | atEnd hend =>
    rw [opcode?_eq_none hframes hend] at hop
    cases hop
  | unknown _ hnone =>
    rw [hop] at hnone
    cases hnone
  | operation hop' =>
    obtain rfl := Option.some.inj (hop.symm.trans hop')
    rfl

/-- An operation that ends without an exception is all there is to an instruction. -/
theorem instruction_eq_ok (hframes : m.frames = f :: rest) {op : Opcode}
    (hop : m.opcode? = some op) {e : Option Ending} {m' : Machine}
    (hexecute : execute host f.ip op (m.atOffset (f.ip + 1)) = .ok e m') :
    instruction host m = .ok e m' := by
  rw [instruction_eq hframes hop]
  unfold throwing
  rw [hexecute]

theorem instruction_eq_return (hframes : m.frames = f :: rest) (hend : f.proto.blob.size ≤ f.ip) :
    instruction host m = maybeReturn (finishReturn .nil) m := by
  unfold instruction
  rw [bind_of_ok (frame_eq hframes), if_pos hend]

/-- Without a call there is no instruction. -/
theorem instruction_of_nil (host : Host) (hframes : m.frames = []) :
    instruction host m = .error (.fault (.internal .noFrame)) m := by
  unfold instruction
  exact bind_of_error (frame_of_nil hframes) _

/-! Turns. -/

/-- Where the innermost call may go on within its stream, without a region being involved. -/
inductive Passes (m : Machine) (f : Frame) : Nat → Prop where
  /-- Behind the instruction. -/
  | falls {op : Opcode} (hop : m.opcode? = some op)
      (hfalls : op.isPlain = true ∨ op = .jumpIfFalse) : Passes m f (f.ip + op.layout.width 0)
  | jumps {op : Opcode} {n : UInt16} (hop : m.opcode? = some op)
      (hlayout : op.layout = .jumpForward) (hn : f.proto.blob.shortAt? (f.ip + 1) = some n) :
      Passes m f (f.ip + 3 + n.toNat)
  | loops {op : Opcode} {n : UInt16} (hop : m.opcode? = some op)
      (hlayout : op.layout = .jumpBackward) (hn : f.proto.blob.shortAt? (f.ip + 1) = some n)
      (hle : n.toNat ≤ f.ip + 3) : Passes m f (f.ip + 3 - n.toNat)
  | switches {v : Value} {s : SwitchTable} {d : Nat} (hop : m.opcode? = some .switch)
      (hv : f.proto.blob.constantAt? (f.ip + 1) = some v)
      (hs : m.heap.object? v = some (.switch s)) (hd : d ∈ s.distances) :
      Passes m f (f.ip + 3 + d)

/-- Why a call returns a value, and the completions that are left then. -/
inductive Returning (m : Machine) (f : Frame) : Value → List Pending → Prop where
  | ret {v : Value} (hop : m.opcode? = some .ret) (hv : m.stack.back? = some v) :
      Returning m f v m.completions
  /-- The end of the stream. -/
  | atEnd (hend : f.proto.blob.size ≤ f.ip) : Returning m f .nil m.completions
  /-- The end of a finally block that a return had entered. -/
  | resumed {v : Value} {p : Pending} {cs : List Pending} (hop : m.opcode? = some .endFinally)
      (hcompletions : m.completions = p :: cs) (hdepth : p.frameDepth = m.frames.length)
      (hp : p.completion = .giveBack v) : Returning m f v cs

/-- Why an exception is thrown, and the completions that are left then. -/
inductive Throwing (host : Host) (m : Machine) (f : Frame) : Value → List Pending → Prop where
  | raised {op : Opcode} {e : Value} {q : Machine} (hop : m.opcode? = some op)
      (hother : op ≠ .endFinally)
      (hraised : execute host f.ip op (m.atOffset (f.ip + 1)) = .error (.raised e) q) :
      Throwing host m f e m.completions
  /-- The end of a finally block that a throw had entered. -/
  | rethrown {e : Value} {p : Pending} {cs : List Pending} (hop : m.opcode? = some .endFinally)
      (hcompletions : m.completions = p :: cs) (hdepth : p.frameDepth = m.frames.length)
      (hp : p.completion = .rethrow e) : Throwing host m f e cs

/-- One instruction after which the run goes on. -/
inductive Turn (host : Host) (m : Machine) : Machine → Prop where
  /-- The innermost call moves on. -/
  | goes {f : Frame} {rest : List Frame} {ip : Nat} {q : Machine} (hframes : m.frames = f :: rest)
      (hpasses : m.Passes f ip) (hquiet : Quiet host (m.atOffset ip) q) : Turn host m q
  /-- A closure is made of a function constant. -/
  | makes {f : Frame} {rest : List Frame} {function : Ref} {proto : Prototype} {upvalues : List Ref}
      {q : Machine} {stack : Array Value} (hframes : m.frames = f :: rest)
      (hop : m.opcode? = some .makeClosure)
      (hconstant : f.proto.blob.constantAt? (f.ip + 1) = some (.ref function))
      (hfunction : m.heap.get? function = some (.function proto))
      (hquiet : Quiet host (m.atOffset (f.ip + 3 + 3 * proto.captured)) q) :
      Turn host m { (q.alloc (.closure { function, proto, upvalues })).2 with stack }
  /-- A call begins. -/
  | calls {f : Frame} {rest : List Frame} {op : Opcode} {base : Nat} {m' : Machine}
      (hframes : m.frames = f :: rest) (hop : m.opcode? = some op) (hplain : op.isPlain = true)
      (hcalled : Called host base (m.atOffset (f.ip + op.layout.width 0)) m') : Turn host m m'
  /-- A region is entered. -/
  | enters {f : Frame} {rest : List Frame} {handler block : UInt16} {region : Region}
      (hframes : m.frames = f :: rest) (hop : m.opcode? = some .enterTry)
      (hhandler : f.proto.blob.shortAt? (f.ip + 3) = some handler)
      (hblock : f.proto.blob.shortAt? (f.ip + 5) = some block)
      (hregion : region.handler? = address? handler ∧ region.finally? = address? block ∧
        region.frameDepth = m.frames.length)
      (hfew : (m.regions.takeWhile fun r => r.frameDepth == m.frames.length).length <
        m.settings.maxTryDepth) :
      Turn host m ((m.atOffset (f.ip + 7)).steer (m.atOffset (f.ip + 7)).frames
        (region :: m.regions) m.completions)
  /-- A region is left by its end, and its finally block begins if it has one. -/
  | pops {f : Frame} {rest : List Frame} {region : Region} {older : List Region}
      (hframes : m.frames = f :: rest) (hop : m.opcode? = some .popTry)
      (hregions : m.regions = region :: older) :
      Turn host m ((m.atOffset (f.ip + 1)).steer
        (resumeAt m.frames m.frames.length (region.finally?.getD (f.ip + 1))) older
        (pendings older m.frames.length (region.finally?.map fun _ => .resume (f.ip + 1)) ++
          m.completions))
  /-- A finally block ends, and the call goes on where it had left the region. -/
  | resumes {f : Frame} {rest : List Frame} {p : Pending} {cs : List Pending} {ip : Nat}
      {stack : Array Value} (hframes : m.frames = f :: rest)
      (hop : m.opcode? = some .endFinally) (hcompletions : m.completions = p :: cs)
      (hdepth : p.frameDepth = m.frames.length)
      (hp : p.completion = .resume ip ∨ ∃ e, p.completion = .handle ip e) :
      Turn host m (({ m with stack } : Machine).steer (m.atOffset ip).frames m.regions cs)
  /-- A return begins a finally block. -/
  | returns {f : Frame} {rest : List Frame} {v : Value} {cs : List Pending}
      {gone older : List Region} {region : Region} {ip block : Nat} {q : Machine}
      (hframes : m.frames = f :: rest) (hreturning : m.Returning f v cs)
      (hregions : m.regions = gone ++ region :: older) (hgone : PassedOver m.frames.length gone)
      (hdepth : region.frameDepth = m.frames.length) (hfinally : region.finally? = some block)
      (hquiet : Quiet host (m.atOffset ip) q) :
      Turn host m (q.steer (resumeAt m.frames m.frames.length block) older
        (pendings older m.frames.length (some (.giveBack v)) ++ cs))
  /-- A call is over, and its caller goes on. -/
  | leaves {f : Frame} {rest : List Frame} {v : Value} {cs : List Pending}
      {gone older : List Region} {ip : Nat} {q : Machine} (hframes : m.frames = f :: rest)
      (hrest : rest ≠ []) (hreturning : m.Returning f v cs) (hregions : m.regions = gone ++ older)
      (hgone : PassedOver m.frames.length gone)
      (holder : ∀ r ∈ older.head?, r.frameDepth ≠ m.frames.length)
      (hquiet : Quiet host (m.atOffset ip) q) :
      Turn host m (q.steer rest older (cs.dropWhile fun p => decide (rest.length < p.frameDepth)))
  /-- An exception is thrown. -/
  | throws {f : Frame} {rest : List Frame} {e : Value} {cs : List Pending}
      {gone older : List Region} {region : Region} {ip target : Nat} {c : Option Completion}
      {q : Machine} (hframes : m.frames = f :: rest) (hthrowing : Throwing host m f e cs)
      (hregions : m.regions = gone ++ region :: older) (hgone : ∀ r ∈ gone, r.finally? = none)
      (hquiet : Quiet host (m.atOffset ip) q) (hstops : Stops q.heap region e target c) :
      Turn host m (q.steer (resumeAt m.frames region.frameDepth target) older
        (pendings older region.frameDepth c ++
          cs.dropWhile fun p => decide (older.length < p.tryDepth)))

/-- The next instruction of a call can be read, and what it refers to is there. -/
structure Runnable (m : Machine) (f : Frame) : Prop where
  reads : ∃ op, m.opcode? = some op ∧ op.layout.isReadable f.proto.blob (f.ip + 1) = true
  loops : m.opcode? = some .loop → ∀ n, f.proto.blob.shortAt? (f.ip + 1) = some n →
    n.toNat ≤ f.ip + 3
  switches : m.opcode? = some .switch → ∀ v, f.proto.blob.constantAt? (f.ip + 1) = some v →
    ∃ s, m.heap.object? v = some (.switch s)
  makes : m.opcode? = some .makeClosure → ∀ v, f.proto.blob.constantAt? (f.ip + 1) = some v →
    ∃ function proto, v = .ref function ∧ m.heap.get? function = some (.function proto) ∧
      f.ip + 3 + 3 * proto.captured ≤ f.proto.blob.size

/-- The regions of a machine stand in the order of the calls that entered them, and the calls are
still under way. -/
structure Nested (m : Machine) : Prop where
  sorted : m.regions.Pairwise fun r s => s.frameDepth ≤ r.frameDepth
  depths : ∀ r ∈ m.regions, 1 ≤ r.frameDepth ∧ r.frameDepth ≤ m.frames.length

/-- What an instruction ends in. -/
inductive Outcome (host : Host) (m : Machine) (f : Frame) :
    EStateM.Result Signal Machine (Option Ending) → Prop where
  | turned {m' : Machine} (hturn : Turn host m m') : Outcome host m f (.ok none m')
  /-- The last call is over. -/
  | returned {v w : Value} {cs : List Pending} {gone older : List Region} {ip : Nat} {q : Machine}
      (hframes : m.frames = [f]) (hreturning : m.Returning f v cs)
      (hregions : m.regions = gone ++ older) (hgone : PassedOver m.frames.length gone)
      (holder : ∀ r ∈ older.head?, r.frameDepth ≠ m.frames.length)
      (hquiet : Quiet host (m.atOffset ip) q) :
      Outcome host m f (.ok (some (.returned w))
        (((q.closeUpvalues f.base).truncate f.base).steer [] older
          (cs.dropWhile fun p => decide (0 < p.frameDepth))))
  | halted (ip : Nat) (status : UInt8) :
      Outcome host m f (.ok (some (.halted status)) (m.atOffset ip).reset)
  | failed {s : Signal} {ip : Nat} {q m' : Machine} (hquiet : Quiet host (m.atOffset ip) q)
      (hkept : Kept host q m') (hblame : s.blamesCode = true → ¬ m.Runnable f)
      (hfinal : s.isRaised = false) : Outcome host m f (.error s m')

end ScriptMachine.Machine
