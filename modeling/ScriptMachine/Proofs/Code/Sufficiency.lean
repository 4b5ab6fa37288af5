import ScriptMachine.Proofs.Code.Execution
import ScriptMachine.Proofs.Machine.Construction
import ScriptMachine.Proofs.Machine.Ownership

/-!
The check of a stream suffices for running it. Where the check has accepted the streams of a script
and of all closures, every call of a run is at an instruction of its own stream or at the end, every
constant is there and of the right kind, and no step finds fault with a stream, unless a region of
another call was left by its end before.
-/

namespace ScriptMachine

open Instruction

/-- The operands of a sane stream can be read where they stand. -/
theorem Sane.isReadable {h : Heap} {blob : Blob} {is : List Instruction} {i : Instruction}
    (hsane : Sane h blob is) (hi : i ∈ is) :
    i.op.layout.isReadable blob (i.offset + 1) = true := by
  have hconstant {index : UInt16} (hsome : ∃ e, Validation.expected? i = some (index, e))
      (hindex : blob.shortAt? (i.offset + 1) = some index) :
      (blob.constantAt? (i.offset + 1)).isSome = true := by
    obtain ⟨e, he⟩ := hsome
    obtain ⟨v, hv, -⟩ := hsane.constants i hi index e he
    rw [Blob.constantAt?, hindex, Option.bind_some, hv]
    rfl
  have hpresent {α : Type} {x : Option α} {a : α} (hx : x = some a) : x.isSome = true := by
    rw [hx]
    rfl
  obtain ⟨_, hholds, -⟩ := (hsane.streams.decoded hi).operand
  generalize hoperand : i.operand = operand at hholds
  generalize i.op.layout = layout at hholds
  unfold Validation.expected? at hconstant
  rw [hoperand] at hconstant
  cases hholds with
  | none => rfl
  | byte hn => exact hpresent hn
  | short hn => exact hpresent hn
  | const hindex =>
    refine hconstant ?_ hindex
    dsimp only
    split <;> exact ⟨_, rfl⟩
  | jumpForward hn => exact hpresent hn
  | jumpBackward hn => exact hpresent hn
  | tryRegion htype hhandler hblock =>
    refine Bool.and_eq_true_iff.2 ⟨Bool.and_eq_true_iff.2 ⟨?_, hpresent hhandler⟩, hpresent hblock⟩
    exact hconstant ⟨_, rfl⟩ htype
  | invoke hname hn => exact Bool.and_eq_true_iff.2 ⟨hconstant ⟨_, rfl⟩ hname, hpresent hn⟩
  | constByte hindex hn => exact Bool.and_eq_true_iff.2 ⟨hconstant ⟨_, rfl⟩ hindex, hpresent hn⟩
  | closure hfunction => exact hconstant ⟨_, rfl⟩ hfunction

namespace Machine

variable {host : Host} {m m' : Machine} {ms : Nat → Machine} {f : Frame} {rest : List Frame}
  {op : Opcode} {n t : Nat}

/-- Each call is at an instruction of its stream or at the end, and the constants that the
instructions of its stream refer to are there and of the right kind. -/
structure OnCourse (m : Machine) : Prop where
  decodes : ∀ f ∈ m.frames, (decodeAll m.heap.captured? f.proto.blob).defect? = none
  offsets : ∀ f ∈ m.frames, f.ip = f.proto.blob.size ∨
    ∃ i ∈ (decodeAll m.heap.captured? f.proto.blob).instructions, i.offset = f.ip
  constants : ∀ f ∈ m.frames, ∀ i ∈ (decodeAll m.heap.captured? f.proto.blob).instructions,
    ∀ index e, Validation.expected? i = some (index, e) →
      ∃ v, f.proto.blob.constant? index = some v ∧ e.admits m.heap v = true
  functions : ∀ f ∈ m.frames, ∀ i ∈ (decodeAll m.heap.captured? f.proto.blob).instructions,
    ∀ index captures, i.operand = .closure index captures →
      ∃ r proto, f.proto.blob.constant? index = some (.ref r) ∧
        m.heap.get? r = some (.function proto)

namespace Secure

theorem onCourse (hm : m.Secure) : m.OnCourse := by
  have hsane (f : Frame) (hf : f ∈ m.frames) := (hm.trusted.accepted hf).sane
  refine ⟨fun f hf => ?_, fun f hf => ?_, fun f hf i hi => ?_, fun f hf i hi => ?_⟩
  · rw [decodeAll_eq_iff.2 (hsane f hf).streams]
  · rcases hm.aligned.calls f hf with hend | ⟨i, hi, hoffset⟩
    · exact Or.inl hend
    · exact Or.inr ⟨i, Array.mem_toList_iff.1 hi, hoffset⟩
  · exact (hsane f hf).constants i (Array.mem_toList_iff.2 hi)
  · intro index captures hoperand
    obtain ⟨r, proto, hr, hproto, -⟩ :=
      (hsane f hf).function_of_closure (Array.mem_toList_iff.2 hi) hoperand
    exact ⟨r, proto, hr, hproto⟩

theorem runnable (hm : m.Secure) (hframes : m.frames = f :: rest) (hop : m.opcode? = some op) :
    m.Runnable f := by
  have hsane := hm.sane hframes
  obtain ⟨i, hi, hoffset, rfl⟩ := hm.exists_instruction hframes hop
  have hdecoded := hsane.streams.decoded hi
  have hsame {op : Opcode} (hop' : m.opcode? = some op) : i.op = op :=
    Option.some.inj (hop.symm.trans hop')
  refine ⟨⟨i.op, hop, hoffset ▸ hsane.isReadable hi⟩, ?_, ?_, ?_⟩
  · intro hloop n hn
    rw [← hoffset] at hn ⊢
    have hlayout : i.op.layout = .jumpBackward := by rw [hsame hloop]; rfl
    have hoperand := hdecoded.operand_eq hlayout nofun (.jumpBackward hn)
    obtain ⟨hpos, -⟩ := hsane.jumps i hi _ _ hoperand
    simp only [Int.ofNat_eq_natCast] at hpos
    omega
  · intro hswitch v hv
    obtain ⟨index, hindex, hv⟩ := Option.bind_eq_some_iff.1 hv
    rw [← hoffset] at hindex
    have hlayout : i.op.layout = .const := by rw [hsame hswitch]; rfl
    have hoperand := hdecoded.operand_eq hlayout nofun (.const hindex)
    have hexpected : Validation.expected? i = some (index, .switch) := by
      unfold Validation.expected?
      rw [hoperand, hsame hswitch]
    obtain ⟨w, hw, hadmits⟩ := hsane.constants i hi index .switch hexpected
    obtain rfl := Option.some.inj (hv.symm.trans hw)
    obtain ⟨s, hs⟩ := Option.isSome_iff_exists.1 hadmits
    unfold Validation.switchTable? at hs
    split at hs
    · exact ⟨_, ‹_›⟩
    · cases hs
  · intro hmake v hv
    obtain ⟨r, proto, hr, hproto, -, hfits, -⟩ := hm.exists_function hframes hmake
    exact ⟨r, proto, Option.some.inj (hv.symm.trans hr), hproto, hfits⟩

end Secure

/-- At the end of its stream a call returns. -/
theorem instruction_at_end (host : Host) (hframes : m.frames = f :: rest)
    (hend : f.proto.blob.size ≤ f.ip) :
    ∃ r m', instruction host m = .ok r m' := by
  have hreturns := returns_finishReturn hframes .nil
  rw [instruction_eq_return hframes hend]
  unfold maybeReturn
  generalize hresult : finishReturn .nil m = result at hreturns
  cases hreturns with
  | held => exact ⟨_, _, bind_of_ok hresult _⟩
  | left => exact ⟨_, _, bind_of_ok hresult _⟩
  | last => exact ⟨_, _, bind_of_ok hresult _⟩

/-- A step of a secure machine finds no fault with a stream. -/
theorem Secure.step_blameless (hdiscreet : host.Discreet) (hm : m.Secure) {s : Signal}
    (hstep : step host m = .error s m') : s.blamesCode = false := by
  have hdue := hm.collectIfDue
  unfold step at hstep
  rw [modify_bind] at hstep
  cases hframes : m.collectIfDue.frames with
  | nil =>
    rw [instruction_of_nil host hframes] at hstep
    cases hstep
    rfl
  | cons f rest =>
    rcases hdue.aligned.calls f (hframes ▸ List.mem_cons_self) with hend | ⟨i, hi, hoffset⟩
    · obtain ⟨r, m', hok⟩ := instruction_at_end host hframes (le_of_eq hend.symm)
      exact absurd (hstep.symm.trans hok) nofun
    · have hop : m.collectIfDue.opcode? = some i.op := by
        rw [opcode?_eq hframes, ← hoffset]
        exact ((hdue.sane hframes).streams.decoded hi).op
      have houtcome := instruction_outcome hdiscreet hframes hdue.coherent.nested
      rw [hstep] at houtcome
      cases houtcome with
      | failed _ _ hblame _ =>
        rw [← Bool.not_eq_true]
        exact fun hblames => hblame hblames (hdue.runnable hframes hop)

/-! Runs. -/

/-- A machine that begins a script that the check accepts is secure. -/
theorem Trusted.secure_entered (hm : m.Trusted) (hdiscreet : host.Discreet) (hframes : m.frames = [])
    (hsettled : m.Settled) {proto : Prototype}
    (hcheck : Validation.check m.heap proto.blob = .ok ()) : (m.entered proto).Secure := by
  let compiled := (m.alloc (.function proto)).2
  let made : Closure := { function := (m.heap.alloc (.function proto)).1, proto, upvalues := [] }
  have hcompiled : m.Steady compiled := hm.alloc nofun
  have hmade : compiled.heap.Trusts made :=
    ⟨(Heap.get?_alloc hm.heap _ _).trans (if_pos rfl),
      (Heap.Accepted.of_check hcheck).persist (endures_alloc hm.heap _) fun _ _ => trivial⟩
  have hclosed : compiled.Steady (compiled.alloc (.closure made)).2 :=
    hcompiled.trusted.alloc fun c hc => Object.closure.inj hc ▸ hmade
  have hclosure : (m.entered proto).heap.get? (compiled.heap.alloc (.closure made)).1 =
      some (.closure made) := (Heap.get?_alloc hcompiled.trusted.heap _ _).trans (if_pos rfl)
  have hfirst {g : Frame} (hg : g ∈ (m.entered proto).frames) :
      g.closure = (compiled.heap.alloc (.closure made)).1 ∧ g.proto = proto ∧ g.ip = 0 := by
    rcases List.mem_cons.1 hg with rfl | hmem
    · exact ⟨rfl, rfl, rfl⟩
    · rw [hframes] at hmem
      cases hmem
  obtain ⟨hregions, hcompletions, -⟩ := hsettled hframes
  have hlaunched : Launched host (m.entered proto) := .script hframes hsettled proto
  refine ⟨⟨⟨hclosed.trusted.heap, hclosed.trusted.rest, hclosed.trusted.closures, fun g hg => ?_⟩,
    fun g hg => ?_, fun r hr => ?_, fun p hp => ?_⟩, hlaunched.coherent hdiscreet⟩
  · obtain ⟨heq, hproto, -⟩ := hfirst hg
    rw [heq, hproto]
    exact ⟨made, hclosure, rfl⟩
  · obtain ⟨-, hproto, hip⟩ := hfirst hg
    rw [hproto, hip]
    exact (hclosed.trusted.closures _ made hclosure).2.sane.streams.lands
  · have hnone : r ∈ m.regions := hr
    rw [hregions] at hnone
    cases hnone
  · have hnone : p ∈ m.completions := hp
    rw [hcompletions] at hnone
    cases hnone

/-- While no region of another call is left by its end, the machines of a run stay secure. -/
theorem Follows.secure (hdiscreet : host.Discreet) (hmodest : host.Modest)
    (hfollows : Follows host ms n) (hlaunched : Launched host (ms 0)) (hstart : (ms 0).Secure)
    (hown : ∀ t < n, (ms t).opcode? = some .popTry →
      ∀ r ∈ (ms t).regions.head?, r.frameDepth = (ms t).frames.length) (ht : t ≤ n) :
    (ms t).Secure := by
  induction t with
  | zero => exact hstart
  | succ t ih =>
    have hdue := (ih (by omega)).collectIfDue
    refine (hfollows.turn hdiscreet hlaunched (by omega)).secure hdiscreet hmodest hdue ?_
    rw [opcode?_collectIfDue, regions_collectIfDue, frames_collectIfDue]
    exact hown t (by omega)

/-- A machine whose calls and closures are trusted runs a script that the check accepts. As long as
no region is left by its end while another call has entered it, every call is at an instruction of
its stream or at the end, before a collection and after it; all constants are there and of the right
kind; no step finds fault with a stream; and the calls and closures stay trusted. -/
theorem checked_script_stays_on_course (hdiscreet : host.Discreet) (hmodest : host.Modest)
    (hm : m.Trusted) (hframes : m.frames = []) (hsettled : m.Settled) {proto : Prototype}
    (hcheck : Validation.check m.heap proto.blob = .ok ()) (hstart : ms 0 = m.entered proto)
    (hfollows : Follows host ms n)
    (hown : ∀ t < n, (ms t).opcode? = some .popTry →
      ∀ r ∈ (ms t).regions.head?, r.frameDepth = (ms t).frames.length) (ht : t ≤ n) :
    (ms t).OnCourse ∧ (ms t).collectIfDue.OnCourse ∧ (ms t).Trusted ∧
      ∀ s m', step host (ms t) = .error s m' → s.blamesCode = false := by
  have hlaunched : Launched host (ms 0) := hstart ▸ .script hframes hsettled proto
  have hentered : (ms 0).Secure :=
    hstart ▸ hm.secure_entered hdiscreet hframes hsettled hcheck
  have hsecure := hfollows.secure hdiscreet hmodest hlaunched hentered hown ht
  exact ⟨hsecure.onCourse, hsecure.collectIfDue.onCourse, hsecure.trusted,
    fun s m' hstep => hsecure.step_blameless hdiscreet hstep⟩

/-- Without closures there is nothing to trust. -/
theorem trusted_bare : bare.Trusted := by
  have hfounded : bare.heap.Founded := Heap.founded_new 1024 2 false
  refine ⟨hfounded.wellFormed, hfounded.rest, fun r c hc => ?_, nofun⟩
  cases hfounded.plain r _ hc

theorem checked_script_stays_on_course_cleanupScript :
    let ms := states .idle (bare.entered (.script cleanupScript))
    (ms 1).opcode? = some .popTry ∧ (ms 3).OnCourse ∧ (ms 3).collectIfDue.OnCourse ∧
      (ms 3).Trusted ∧ ∀ s m', step .idle (ms 3) = .error s m' → s.blamesCode = false :=
  ⟨by decide +kernel, checked_script_stays_on_course Host.discreet_idle Host.modest_idle
    trusted_bare rfl (fun _ => ⟨rfl, rfl, rfl⟩) (by cbv) rfl
    (follows_states (show ∀ t < 3, _ by decide +kernel)) (by decide +kernel) (le_refl 3)⟩

end Machine

end ScriptMachine
