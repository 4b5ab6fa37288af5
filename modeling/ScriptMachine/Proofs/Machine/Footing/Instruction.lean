import ScriptMachine.Proofs.Machine.Footing.Variable
import ScriptMachine.Proofs.Machine.Turn.Instruction

/-!
Every instruction after which the run goes on leaves a footprint. An instruction that raises an
exception leaves that of the throw besides.
-/

namespace ScriptMachine.Machine

open World

variable {α : Type} {host : Host} {m m' p q : Machine} {f : Frame} {rest : List Frame} {op : Opcode}
  {slot count ip : Nat}

/-! Control. -/

theorem onTop_fetchByte : OnTop 0 fetchByte := by
  refine onTop_frame.bind fun f => ?_
  cases f.proto.blob.byteAt? f.ip with
  | none => exact onTop_throw
  | some b => exact (onTop_jumpTo _).bind fun _ => onTop_pure b

theorem onTop_fetchShort : OnTop 0 fetchShort :=
  onTop_fetchByte.bind fun _ => onTop_fetchByte.bind fun _ => onTop_pure _

theorem onTop_fetchConstant : OnTop 0 fetchConstant := by
  refine onTop_fetchShort.bind fun index => onTop_frame.bind fun f => ?_
  cases f.proto.blob.constant? index with
  | none => exact onTop_throw
  | some v => exact onTop_pure v

theorem onTop_jumpIfFalse (distance : Nat) : OnTop 0 (jumpIfFalse distance) := by
  refine onTop_pop.bind fun v => onTop_read fun m => ?_
  split
  · exact onTop_jumpBy distance
  · exact onTop_pure _

theorem onTop_jumpBack (start distance : Nat) : OnTop 0 (jumpBack start distance) := by
  refine onTop_frame.bind fun f => ?_
  split
  · exact onTop_jumpTo _
  · exact onTop_throw

theorem onTop_switchOn (table : Value) : OnTop 0 (switchOn table) := by
  refine onTop_pop.bind fun v => onTop_read fun m => ?_
  split
  · exact onTop_jumpBy _
  · exact onTop_breach _

theorem onTopAt_withRegions (m : Machine) (regions : List Region) :
    OnTopAt 0 m (set { m with regions } : Exec Unit) := onTopAt_set ⟨rfl, .refl _ _⟩ rfl rfl

theorem onTop_enterTry : OnTop 0 enterTry := by
  refine onTop_fetchConstant.bind fun type => onTop_fetchShort.bind fun handler => ?_
  refine onTop_fetchShort.bind fun block => onTop_get fun m => ?_
  by_cases hmany : m.settings.maxTryDepth ≤
      (m.regions.takeWhile fun r => r.frameDepth == m.frames.length).length
  · rw [if_pos hmany]
    exact onTop_misuse _ m
  · rw [if_neg hmany]
    exact onTopAt_withRegions m _

theorem onTop_pushCompletion (c : Completion) : OnTop 0 (pushCompletion c) :=
  fun m => ⟨⟨rfl, .refl _ _⟩, rfl, .refl m.stack⟩

theorem onTop_popTry : OnTop 0 popTry := by
  refine onTop_get fun m => ?_
  cases m.regions with
  | nil => exact onTop_breach _ m
  | cons region older =>
    refine (onTopAt_withRegions m older).bind fun _ => ?_
    cases region.finally? with
    | none => exact onTop_pure ()
    | some block =>
      exact onTop_frame.bind fun _ => (onTop_pushCompletion _).bind fun _ => onTop_jumpTo block

/-! Ways out. -/

/-- A return from a machine that differs from the one about to depart in its calls, regions and
completions only. -/
theorem prints_return (hframes : m.frames = f :: rest) (hop : ∀ op ∈ m.opcode?, op.departs = true)
    (ip : Nat) (regions : List Region) (completions : List Pending) (v : Value) :
    Prints m (maybeReturn (finishReturn v)
      (m.departing.steer (m.atOffset ip).frames regions completions)) := by
  let p := m.departing.steer (m.atOffset ip).frames regions completions
  have hmoved : p.frames = { f with ip } :: rest := frames_atOffset hframes ip
  have hretires : Retires { f with ip } rest v p (finishReturn v p) :=
    retires_returnThrough hmoved v p.frames.length p.regions
  have hlength : p.frames.length = m.departing.frames.length := by
    rw [frames_departing]
    exact length_frames_atOffset m ip
  have hleft : Recedes m.departing p := .steer .refl (Nat.le_of_eq hlength) _ _
  show Prints m ((finishReturn v >>= fun v? => pure (v?.map Ending.returned)) p)
  cases hres : finishReturn v p with
  | ok w m' =>
    rw [hres] at hretires
    rw [bind_of_ok hres]
    cases w with
    | some w => exact Or.inl (hleft.trans hretires)
    | none =>
      rcases hretires with ⟨q, hrecedes, hlands, -⟩ | ⟨hyields, hrest⟩
      · exact .departs hop (hleft.trans hrecedes) hlands
      · exact .leaves hframes hop hrest ⟨hyields.heap, hyields.openUpvalues, hyields.stack⟩
  | error s q =>
    rw [hres] at hretires
    rw [bind_of_error hres]
    exact prints_final hretires q

theorem prints_ret (hframes : m.frames = f :: rest) (hop : m.opcode? = some .ret) :
    Prints m (execute host f.ip .ret (m.atOffset (f.ip + 1))) := by
  let behind := m.atOffset (f.ip + 1)
  have hdeparts : ∀ op ∈ m.opcode?, op.departs = true := by
    rw [hop]
    rintro op ⟨⟩
    rfl
  show Prints m (maybeReturn (pop >>= finishReturn) behind)
  rcases maybeReturn_pop_cases behind with ⟨v, -, hok⟩ | herror
  · have hdeparting : { behind with stack := behind.stack.pop } =
        m.departing.steer behind.frames m.regions m.completions := by
      rw [departing_of_ret hop]
      rfl
    rw [hok, hdeparting]
    exact prints_return hframes hdeparts _ _ _ v
  · rw [herror]
    trivial

theorem prints_endFinally (hframes : m.frames = f :: rest) (hop : m.opcode? = some .endFinally) :
    Prints m (execute host f.ip .endFinally (m.atOffset (f.ip + 1))) := by
  let behind := m.atOffset (f.ip + 1)
  have hdeparts : ∀ op ∈ m.opcode?, op.departs = true := by
    rw [hop]
    rintro op ⟨⟩
    rfl
  have hdeparting : m.departing = m := departing_eq (by rw [hop]; nofun)
  -- Wherever the block goes on, the stack is what the instruction has found.
  have hlanded {q : Machine} (hlands : Lands m q) : Footprint m q :=
    .departs hdeparts (by rw [hdeparting]; exact .refl) hlands
  show Prints m (maybeReturn endFinally behind)
  cases hcompletions : m.completions with
  | nil =>
    rw [maybeReturn_endFinally_of_nil hcompletions]
    trivial
  | cons p cs =>
    by_cases hdepth : p.frameDepth = m.frames.length
    swap
    · rw [maybeReturn_endFinally_of_ne hcompletions hdepth]
      trivial
    let taken := m.steer behind.frames m.regions cs
    have htaken : taken.frames = { f with ip := f.ip + 1 } :: rest := frames_atOffset hframes _
    have hlength {ip : Nat} : (taken.atOffset ip).frames.length = m.frames.length := by
      rw [length_frames_atOffset]
      exact length_frames_atOffset m _
    rw [maybeReturn_endFinally hcompletions hdepth]
    cases p.completion with
    | resume offset =>
      rw [maybeReturn_resume htaken]
      exact hlanded ⟨hlength, rfl, rfl, Or.inl rfl⟩
    | handle handler e =>
      rw [maybeReturn_handle htaken]
      exact hlanded ⟨hlength, rfl, rfl, Or.inr ⟨e, rfl⟩⟩
    | rethrow e =>
      have hleft : Recedes m taken := .steer .refl (Nat.le_of_eq (length_frames_atOffset m _)) _ _
      have harrives : Arrives m (propagate e taken) :=
        (arrives_propagateThrough e taken.regions taken).after hleft
      rw [maybeReturn_rethrow]
      cases hres : propagate e taken with
      | ok a m' =>
        rw [hres] at harrives
        obtain ⟨q, hrecedes, hlands⟩ := harrives
        rw [bind_of_ok hres]
        rw [← hdeparting] at hrecedes
        exact .departs hdeparts hrecedes hlands
      | error s q =>
        rw [hres] at harrives
        rw [bind_of_error hres]
        exact prints_final harrives q
    | giveBack v =>
      have hreturn := prints_return hframes hdeparts (f.ip + 1) m.regions cs v
      rw [hdeparting] at hreturn
      exact hreturn

/-! Instructions. -/

theorem prints_none {x : Exec Unit} (hop : m.opcode? = some op) (hsimple : op.isSimple = true)
    (hx : OnTop op.pushes x) :
    Prints m (proceed x (m.atOffset (f.ip + 1))) := prints_onTop hop hsimple hx

theorem prints_byte {g : UInt8 → Exec Unit} (hframes : m.frames = f :: rest)
    (hop : m.opcode? = some op) (hsimple : op.isSimple = true)
    (hg : ∀ b, OnTop op.pushes (g b)) :
    Prints m (proceed (fetchByte >>= g) (m.atOffset (f.ip + 1))) :=
  prints_operand hframes reads_fetchByte fun b _ => prints_onTop hop hsimple (hg b)

theorem prints_short {g : UInt16 → Exec Unit} (hframes : m.frames = f :: rest)
    (hop : m.opcode? = some op) (hsimple : op.isSimple = true)
    (hg : ∀ n, OnTop op.pushes (g n)) :
    Prints m (proceed (fetchShort >>= g) (m.atOffset (f.ip + 1))) :=
  prints_operand hframes reads_fetchShort fun n _ => prints_onTop hop hsimple (hg n)

theorem prints_const {g : Value → Exec Unit} (hframes : m.frames = f :: rest)
    (hop : m.opcode? = some op) (hsimple : op.isSimple = true)
    (hg : ∀ v, OnTop op.pushes (g v)) :
    Prints m (proceed (fetchConstant >>= g) (m.atOffset (f.ip + 1))) :=
  prints_operand hframes reads_fetchConstant fun v _ => prints_onTop hop hsimple (hg v)

theorem reach?_eq (hframes : m.frames = f :: rest) (hop : m.opcode? = some op) :
    m.reach? = op.reach? f.proto.blob f.ip := by
  unfold reach?
  rw [hframes, List.head?_cons, Option.bind_some, hop, Option.bind_some]

theorem prints_execute (hsparing : host.Sparing) (hframes : m.frames = f :: rest)
    (hop : m.opcode? = some op) : Prints m (execute host f.ip op (m.atOffset (f.ip + 1))) := by
  have hreach := reach?_eq hframes hop
  cases op with
  | pushConst => exact prints_const hframes hop rfl fun v => onTop_push v
  | pushNil => exact prints_none hop rfl (onTop_push _)
  | pushEmpty => exact prints_none hop rfl (onTop_push _)
  | pushTrue => exact prints_none hop rfl (onTop_push _)
  | pushFalse => exact prints_none hop rfl (onTop_push _)
  | pushOne => exact prints_none hop rfl (onTop_push _)
  | pop => exact prints_none hop rfl (onTop_pop.bind fun _ => onTop_pure ())
  | popN => exact prints_short hframes hop rfl fun n => onTop_drop _
  | dup => exact prints_none hop rfl ((onTop_peek 0).bind fun v => onTop_push v)
  | globalDefine => exact prints_const hframes hop rfl fun v => onTop_defineNamed v
  | globalGet => exact prints_const hframes hop rfl fun v => onTop_getNamed v
  | globalSet => exact prints_const hframes hop rfl fun v => onTop_setNamed v
  | localGet => exact prints_short hframes hop rfl fun n => onTop_getLocal _
  | localSet => exact prints_localSet hframes hop
  | argDefault => exact prints_argDefault hframes hop
  | upvalueGet =>
    exact prints_short hframes hop rfl fun n => (onTop_readUpvalue _).bind fun v => onTop_push v
  | upvalueSet => exact prints_upvalueSet hframes hop
  | closeUpvalue => exact prints_closeUpvalue hop
  | add => exact prints_none hop rfl onTop_add
  | sub => exact prints_none hop rfl (onTop_binaryNumber _ _)
  | mul => exact prints_none hop rfl onTop_multiply
  | div => exact prints_none hop rfl (onTop_binaryNumber _ _)
  | floorDiv => exact prints_none hop rfl (onTop_binaryNumber _ _)
  | mod => exact prints_none hop rfl (onTop_binaryNumber _ _)
  | pow => exact prints_none hop rfl (onTop_binaryNumber _ _)
  | negate => exact prints_none hop rfl (onTop_unaryNumber _ _)
  | not =>
    exact prints_none hop rfl (onTop_pop.bind fun _ => onTop_read fun _ => onTop_push _)
  | bitNot => exact prints_none hop rfl (onTop_unaryNumber _ _)
  | bitAnd => exact prints_none hop rfl (onTop_binaryNumber _ _)
  | bitOr => exact prints_none hop rfl (onTop_binaryNumber _ _)
  | bitXor => exact prints_none hop rfl (onTop_binaryNumber _ _)
  | shiftLeft => exact prints_none hop rfl (onTop_binaryNumber _ _)
  | shiftRight => exact prints_none hop rfl (onTop_binaryNumber _ _)
  | equal =>
    exact prints_none hop rfl (onTop_pop.bind fun _ => onTop_pop.bind fun _ => onTop_push _)
  | greater => exact prints_none hop rfl (onTop_binaryNumber _ _)
  | less => exact prints_none hop rfl (onTop_binaryNumber _ _)
  | jump => exact prints_short hframes hop rfl fun n => onTop_jumpBy _
  | jumpIfFalse => exact prints_short hframes hop rfl fun n => onTop_jumpIfFalse _
  | loop => exact prints_short hframes hop rfl fun n => onTop_jumpBack _ _
  | switch => exact prints_const hframes hop rfl fun v => onTop_switchOn v
  | call =>
    refine prints_operand hframes reads_fetchByte fun n hn => ?_
    have hcall := (aside_peek n.toNat).thenCall fun v => callsTop_callValue hsparing v n.toNat
    refine prints_callsTop hframes hop rfl rfl rfl (hreach.trans ?_) hcall
    rw [Opcode.reach?, hn, Option.map_some]
  | invoke =>
    refine prints_constantByte hframes fun name n hn => ?_
    refine prints_callsTop hframes hop rfl rfl rfl (hreach.trans ?_)
      (callsTop_invoke hsparing name n.toNat _)
    rw [Opcode.reach?, hn, Option.map_some]
  | invokeSelf =>
    refine prints_constantByte hframes fun name n hn => ?_
    refine prints_callsTop hframes hop rfl rfl rfl (hreach.trans ?_)
      (callsTop_invoke hsparing name n.toNat _)
    rw [Opcode.reach?, hn, Option.map_some]
  | invokeSuper =>
    refine prints_constantByte hframes fun name n hn => ?_
    refine prints_popping hframes hop rfl rfl rfl (hreach.trans ?_)
      fun _ hunder => invokes_invokeSuper hsparing hunder name n.toNat
    rw [Opcode.reach?, hn, Option.map_some]
  | superConstructor =>
    refine prints_operand hframes reads_fetchByte fun n hn => ?_
    refine prints_popping hframes hop rfl rfl rfl (hreach.trans ?_)
      fun _ hunder => invokes_superConstructor hsparing hunder n.toNat
    rw [Opcode.reach?, hn, Option.map_some]
  | makeClosure => exact prints_makeClosure hframes hop
  | ret => exact prints_ret hframes hop
  | makeClass => exact prints_const hframes hop rfl fun v => onTop_makeClass v
  | makeMethod => exact prints_const hframes hop rfl fun v => onTop_makeMethod v
  | defineProperty =>
    exact prints_constantByte hframes fun name flag _ =>
      prints_onTop hop rfl (onTop_defineProperty name _)
  | inherit => exact prints_none hop rfl onTop_inherit
  | getSuper =>
    refine prints_operand hframes reads_fetchConstant fun name _ => ?_
    refine prints_replaces hop rfl rfl ?_ hreach ?_ (replaces_getSuper name _)
    · unfold assignment?
      rw [hop]
    · unfold replaced?
      rw [hop]
      rfl
  | propertyGet =>
    refine prints_operand hframes reads_fetchConstant fun name _ => ?_
    exact prints_callsTop hframes hop rfl rfl rfl hreach (callsTop_getProperty hsparing name _)
  | propertyGetSelf =>
    refine prints_operand hframes reads_fetchConstant fun name _ => ?_
    exact prints_callsTop hframes hop rfl rfl rfl hreach (callsTop_getProperty hsparing name _)
  | propertySet => exact prints_const hframes hop rfl fun v => onTop_setProperty v
  | makeArray => exact prints_short hframes hop rfl fun n => onTop_makeArray _
  | makeDict => exact prints_short hframes hop rfl fun n => onTop_makeDict _
  | makeRange => exact prints_none hop rfl onTop_makeRange
  | indexGet => exact prints_byte hframes hop rfl fun flag => onTop_getIndex _
  | sliceGet => exact prints_byte hframes hop rfl fun flag => onTop_getSlice _
  | indexSet => exact prints_none hop rfl onTop_setIndex
  | enterTry => exact prints_none hop rfl onTop_enterTry
  | popTry => exact prints_none hop rfl onTop_popTry
  | endFinally => exact prints_endFinally hframes hop
  | throwTop => exact prints_none hop rfl onTop_throwTop
  | typeOf => exact prints_none hop rfl onTop_typeOfTop
  | stringify =>
    refine prints_replaces hop rfl rfl ?_ hreach ?_ (replaces_stringify _)
    · unfold assignment?
      rw [hop]
    · unfold replaced?
      rw [hop]
      rfl
  | instanceOf => exact prints_none hop rfl onTop_testInstance
  | echo => exact prints_none hop rfl onTop_echo
  | assert => exact prints_none hop rfl onTop_assertTop
  | halt =>
    refine prints_reads hframes reads_fetchByte fun status _ => ?_
    exact Or.inr ⟨f.ip + 2, rfl⟩

/-- The end of a stream. -/
theorem prints_end (hframes : m.frames = f :: rest) (hop : m.opcode? = none) :
    Prints m (maybeReturn (finishReturn .nil) m) := by
  have hdeparts : ∀ op ∈ m.opcode?, op.departs = true := by
    rw [hop]
    nofun
  have hdeparting : m.departing = m := departing_eq (by rw [hop]; nofun)
  have hprints := prints_return hframes hdeparts f.ip m.regions m.completions .nil
  have hsame : m.departing.steer (m.atOffset f.ip).frames m.regions m.completions = m := by
    rw [hdeparting, atOffset_self hframes]
    rfl
  rwa [hsame] at hprints

/-- How an instruction ends without an error: at the end of a stream, with its operation, or with
the throw of an exception that the operation raised. -/
inductive Completes (host : Host) (m : Machine) (f : Frame) : Option Ending → Machine → Prop where
  | atEnd {ending : Option Ending} {m' : Machine} (hop : m.opcode? = none)
      (hok : maybeReturn (finishReturn .nil) m = .ok ending m') : Completes host m f ending m'
  | executed {op : Opcode} {ending : Option Ending} {m' : Machine} (hop : m.opcode? = some op)
      (hok : execute host f.ip op (m.atOffset (f.ip + 1)) = .ok ending m') :
      Completes host m f ending m'
  | thrown {op : Opcode} {e : Value} {q m' : Machine} (hop : m.opcode? = some op)
      (hraised : execute host f.ip op (m.atOffset (f.ip + 1)) = .error (.raised e) q)
      (hthrown : propagate e (q.attachTrace e) = .ok () m') : Completes host m f none m'

theorem completes_instruction (hframes : m.frames = f :: rest) {ending : Option Ending}
    (hok : instruction host m = .ok ending m') : Completes host m f ending m' := by
  have hfetched := fetched_instruction host hframes
  generalize instruction host m = result at hfetched hok
  cases hfetched with
  | atEnd hend => exact .atEnd (opcode?_eq_none hframes hend) hok
  | unknown => cases hok
  | @operation op hop =>
    unfold throwing at hok
    cases hres : execute host f.ip op (m.atOffset (f.ip + 1)) with
    | ok a q =>
      rw [hres] at hok
      obtain ⟨rfl, rfl⟩ := EStateM.Result.ok.inj hok
      exact .executed hop hres
    | error s q =>
      rw [hres] at hok
      cases s with
      | raised e =>
        dsimp only at hok
        unfold throwValue at hok
        rw [bind_assoc, modify_bind] at hok
        cases hthrown : propagate e (q.attachTrace e) with
        | ok u q' =>
          rw [bind_of_ok hthrown] at hok
          obtain ⟨rfl, rfl⟩ := EStateM.Result.ok.inj hok
          exact .thrown hop hres hthrown
        | error s q' =>
          rw [bind_of_error hthrown] at hok
          cases hok
      | _ => cases hok

/-- An instruction after which the run goes on leaves a footprint. -/
theorem handled_instruction (hsparing : host.Sparing) (hframes : m.frames = f :: rest)
    (hinstruction : instruction host m = .ok none m') : Handled host m m' := by
  cases completes_instruction hframes hinstruction with
  | atEnd hop hok =>
    have hprints := prints_end hframes hop
    rw [hok] at hprints
    refine .carried ?_ hprints
    unfold raises?
    rw [hframes, List.head?_cons, hop]
    rfl
  | executed hop hok =>
    have hprints := prints_execute hsparing hframes hop
    rw [hok] at hprints
    exact .carried (raises?_of_ok hframes hop hok) hprints
  | @thrown op e q _ hop hraised hthrown =>
    have hprints := prints_execute hsparing hframes hop
    rw [hraised] at hprints
    obtain ⟨hspares, hrests⟩ := hprints
    have harrives : Arrives (q.attachTrace e) (propagate e (q.attachTrace e)) :=
      arrives_propagateThrough e (q.attachTrace e).regions (q.attachTrace e)
    rw [hthrown] at harrives
    obtain ⟨r, hrecedes, hlands⟩ := harrives
    exact .thrown (raises?_of_raised hframes hop hraised) hspares hrests hrecedes hlands

/-- The last instruction of a run. -/
theorem finishes_instruction (hsparing : host.Sparing) (hframes : m.frames = f :: rest)
    {ending : Ending} (hinstruction : instruction host m = .ok (some ending) m') :
    Finishes m m' := by
  cases completes_instruction hframes hinstruction with
  | atEnd hop hok =>
    have hprints := prints_end hframes hop
    rw [hok] at hprints
    exact hprints
  | executed hop hok =>
    have hprints := prints_execute hsparing hframes hop
    rw [hok] at hprints
    exact hprints

end ScriptMachine.Machine
