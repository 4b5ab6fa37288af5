import ScriptMachine.Proofs.Code.Trust
import ScriptMachine.Proofs.Machine.Alignment
import ScriptMachine.Proofs.Machine.Shifts

/-!
Running accepted streams. In a secure machine the closures are trusted, regions and completions fit
the calls, and all offsets and addresses lie where instructions of the right stream begin. A turn
keeps a machine secure, unless it leaves a region by its end that another call has entered: then
the address of the finally block would be used in the wrong stream.
-/

namespace ScriptMachine

open Instruction

/-- Where the instructions of a stream begin, and its end. -/
def Heap.LandsIn (h : Heap) (blob : Blob) (offset : Nat) : Prop := Lands blob (h.code blob) offset

theorem Opcode.layout_ne_closure {op : Opcode} (hop : op ≠ .makeClosure) : op.layout ≠ .closure := by
  revert hop
  cases op <;> decide

namespace Machine

variable {host : Host} {m m' q : Machine} {f : Frame} {rest : List Frame} {op : Opcode}
  {ip depth target : Nat} {regions : List Region} {cs : List Pending}

/-- The machine is trusted, and all its offsets and addresses lie in the right streams. -/
structure Guided (m : Machine) : Prop where
  trusted : m.Trusted
  aligned : Aligned m.heap.LandsIn m.frames m.regions m.completions

structure Secure (m : Machine) : Prop extends Guided m where
  coherent : m.Coherent

theorem frames_atOffset_eq (m : Machine) (ip : Nat) :
    (m.atOffset ip).frames = resumeAt m.frames m.frames.length ip := by
  unfold atOffset resumeAt
  rw [Nat.sub_self, List.drop_zero]

theorem Trusted.atOffset (hm : m.Trusted) (ip : Nat) : (m.atOffset ip).Trusted :=
  hm.of_frames rfl fun _ hg => exists_of_mem_resumeAt (frames_atOffset_eq m ip ▸ hg)

/-- The streams of the calls begin instructions where they did. -/
theorem Steady.landsIn_iff (h : m.Steady m') (hm : m.Trusted) (hf : f ∈ m.frames) (a : Nat) :
    m'.heap.LandsIn f.proto.blob a ↔ m.heap.LandsIn f.proto.blob a := by
  unfold Heap.LandsIn
  rw [h.code hm hf]

theorem Steady.aligned (h : m.Steady m') (hm : m.Trusted)
    (haligned : Aligned m.heap.LandsIn m.frames regions cs) :
    Aligned m'.heap.LandsIn m'.frames regions cs := by
  rw [h.frames]
  exact haligned.mono fun f hf a => (h.landsIn_iff hm hf a).2

/-- Where the calls of a machine are those of another one, or some of them, they stay trusted and
aligned. -/
theorem Steady.carry (hm : m.Trusted) (hsteady : (m.atOffset ip).Steady q) (hheap : m'.heap = q.heap)
    (hcalls : ∀ g ∈ m'.frames, ∃ f ∈ m.frames, f.closure = g.closure ∧ f.proto = g.proto)
    (haligned : Aligned m.heap.LandsIn m'.frames m'.regions m'.completions) :
    m'.Guided := by
  have hsame (g : Frame) (hg : g ∈ m'.frames) :
      ∃ f ∈ (m.atOffset ip).frames, f.closure = g.closure ∧ f.proto = g.proto := by
    obtain ⟨f, hf, hclosure, hproto⟩ := hcalls g hg
    cases hframes : m.frames with
    | nil =>
      rw [hframes] at hf
      cases hf
    | cons first older =>
      rw [hframes] at hf
      rw [frames_atOffset hframes]
      rcases List.mem_cons.1 hf with rfl | hmem
      · exact ⟨_, List.mem_cons_self, hclosure, hproto⟩
      · exact ⟨f, List.mem_cons_of_mem _ hmem, hclosure, hproto⟩
  refine ⟨hsteady.trusted.of_frames hheap (hsteady.frames ▸ hsame), ?_⟩
  rw [hheap]
  refine haligned.mono fun g hg a ha => ?_
  obtain ⟨f, hf, -, hproto⟩ := hsame g hg
  have hiff := hsteady.landsIn_iff (hm.atOffset ip) hf a
  rw [hproto] at hiff
  exact hiff.2 ha

namespace Secure

theorem sane (hm : m.Secure) (hframes : m.frames = f :: rest) :
    Sane m.heap f.proto.blob (m.heap.code f.proto.blob) :=
  (hm.trusted.accepted (hframes ▸ List.mem_cons_self)).sane

theorem exists_instruction (hm : m.Secure) (hframes : m.frames = f :: rest)
    (hop : m.opcode? = some op) :
    ∃ i ∈ m.heap.code f.proto.blob, i.offset = f.ip ∧ i.op = op := by
  rcases hm.aligned.calls f (hframes ▸ List.mem_cons_self) with hend | ⟨i, hi, hoffset⟩
  · have hnone := opcode?_eq_none hframes (le_of_eq hend.symm)
    exact absurd (hnone.symm.trans hop) nofun
  · have hread := ((hm.sane hframes).streams.decoded hi).op
    rw [hoffset, ← opcode?_eq hframes, hop] at hread
    exact ⟨i, hi, hoffset, (Option.some.inj hread).symm⟩

/-! Where a call may go on. -/

theorem lands_behind (hm : m.Secure) (hframes : m.frames = f :: rest) (hop : m.opcode? = some op)
    (hother : op ≠ .makeClosure) :
    m.heap.LandsIn f.proto.blob (f.ip + op.layout.width 0) := by
  obtain ⟨i, hi, hoffset, rfl⟩ := hm.exists_instruction hframes hop
  have hstreams := (hm.sane hframes).streams
  have hnext := hstreams.lands_next hi
  unfold Instruction.next at hnext
  rw [hoffset, (hstreams.decoded hi).width_eq (Opcode.layout_ne_closure hother)] at hnext
  exact hnext

theorem lands_jump (hm : m.Secure) (hframes : m.frames = f :: rest) {i : Instruction}
    (hi : i ∈ m.heap.code f.proto.blob) {n : UInt16} {target : Int} {ip : Nat}
    (hoperand : i.operand = .jump n target) (htarget : target = Int.ofNat ip) :
    m.heap.LandsIn f.proto.blob ip := by
  obtain ⟨-, hlands⟩ := (hm.sane hframes).jumps i hi n target hoperand
  rw [htarget] at hlands
  exact hlands

theorem lands_passes (hm : m.Secure) (hframes : m.frames = f :: rest) (hpasses : m.Passes f ip) :
    m.heap.LandsIn f.proto.blob ip := by
  have hsane := hm.sane hframes
  cases hpasses with
  | falls hop hfalls =>
    refine hm.lands_behind hframes hop ?_
    rintro rfl
    rcases hfalls with hplain | hjump
    · cases hplain
    · cases hjump
  | @jumps op n hop hlayout hn =>
    obtain ⟨i, hi, hoffset, rfl⟩ := hm.exists_instruction hframes hop
    rw [← hoffset] at hn ⊢
    have hoperand := (hsane.streams.decoded hi).operand_eq hlayout nofun (.jumpForward hn)
    exact hm.lands_jump hframes hi hoperand rfl
  | @loops op n hop hlayout hn hle =>
    obtain ⟨i, hi, hoffset, rfl⟩ := hm.exists_instruction hframes hop
    rw [← hoffset] at hn hle ⊢
    have hoperand := (hsane.streams.decoded hi).operand_eq hlayout nofun (.jumpBackward hn)
    exact hm.lands_jump hframes hi hoperand (by simp only [Int.ofNat_eq_natCast]; omega)
  | @switches v s d hop hv hs hd =>
    obtain ⟨i, hi, hoffset, hswitch⟩ := hm.exists_instruction hframes hop
    have hlayout : i.op.layout = .const := by rw [hswitch]; rfl
    have hdecoded := hsane.streams.decoded hi
    obtain ⟨index, hindex, hv⟩ := Option.bind_eq_some_iff.1 hv
    rw [← hoffset] at hindex ⊢
    have hoperand := hdecoded.operand_eq hlayout nofun (.const hindex)
    have hlands := hsane.switches i hi index v s hswitch hoperand hv hs d hd
    have hwidth : i.width = 3 := by rw [hdecoded.width_eq (by rw [hlayout]; nofun), hlayout]; rfl
    unfold Instruction.next at hlands
    rwa [hwidth] at hlands

/-- The addresses of a region that is entered. -/
theorem lands_region (hm : m.Secure) (hframes : m.frames = f :: rest)
    (hop : m.opcode? = some .enterTry) {handler block : UInt16}
    (hhandler : f.proto.blob.shortAt? (f.ip + 3) = some handler)
    (hblock : f.proto.blob.shortAt? (f.ip + 5) = some block) {a : Nat}
    (ha : address? handler = some a ∨ address? block = some a) :
    m.heap.LandsIn f.proto.blob a := by
  have hsane := hm.sane hframes
  obtain ⟨i, hi, hoffset, henter⟩ := hm.exists_instruction hframes hop
  obtain ⟨_, hholds, -⟩ := (hsane.streams.decoded hi).holds (by rw [henter])
  rw [← hoffset] at hhandler hblock
  generalize hoperand : i.operand = operand at hholds
  have haddress {n : UInt16} (hn : address? n = some a) : a = n.toNat ∧ a ≠ 0 := by
    unfold address? at hn
    split at hn
    · cases hn
    · rename_i hne
      obtain rfl := Option.some.inj hn
      exact ⟨rfl, fun hzero => hne (UInt16.toNat_inj.1 hzero)⟩
  cases hholds with
  | tryRegion htype hhandler' hblock' =>
    obtain rfl := Option.some.inj (hhandler.symm.trans hhandler')
    obtain rfl := Option.some.inj (hblock.symm.trans hblock')
    have hlands := hsane.regions i hi _ _ _ hoperand
    rcases ha with ha | ha
    · obtain ⟨rfl, hne⟩ := haddress ha
      exact hlands _ List.mem_cons_self hne
    · obtain ⟨rfl, hne⟩ := haddress ha
      exact hlands _ (List.mem_cons_of_mem _ List.mem_cons_self) hne

/-- A closure is made of a function whose stream is accepted too. -/
theorem exists_function (hm : m.Secure) (hframes : m.frames = f :: rest)
    (hop : m.opcode? = some .makeClosure) :
    ∃ function proto, f.proto.blob.constantAt? (f.ip + 1) = some (.ref function) ∧
      m.heap.get? function = some (.function proto) ∧ m.heap.Accepted proto.blob ∧
        f.ip + 3 + 3 * proto.captured ≤ f.proto.blob.size ∧
          m.heap.LandsIn f.proto.blob (f.ip + 3 + 3 * proto.captured) := by
  have hsane := hm.sane hframes
  obtain ⟨i, hi, hoffset, hmake⟩ := hm.exists_instruction hframes hop
  have hdecoded := hsane.streams.decoded hi
  have hnext := hsane.streams.lands_next hi
  have hfits := hdecoded.fits
  have hlayout : i.op.layout = .closure := by rw [hmake]; rfl
  obtain ⟨_, hholds, -⟩ := hdecoded.holds hlayout
  generalize hoperand : i.operand = operand at hholds
  cases hholds with
  | closure hindex =>
    obtain ⟨r, proto, hr, hproto, hwidth, haccepted⟩ :=
      (hm.trusted.accepted (hframes ▸ List.mem_cons_self)).function_of_closure hi hoperand
    have hbehind : i.next = f.ip + 3 + 3 * proto.captured := by
      unfold Instruction.next
      omega
    rw [hbehind] at hnext hfits
    rw [hoffset] at hindex
    exact ⟨r, proto, Option.bind_eq_some_iff.2 ⟨_, hindex, hr⟩, hproto, haccepted, hfits, hnext⟩

end Secure

/-! Turns. -/

theorem Secure.steady (hmodest : host.Modest) (hm : m.Secure) (hframes : m.frames = f :: rest)
    (hquiet : Quiet host (m.atOffset ip) q) : (m.atOffset ip).Steady q := by
  have hrunning : (m.atOffset ip).frames ≠ [] := by
    rw [frames_atOffset hframes]
    nofun
  exact (hquiet.tends hmodest hrunning).steady (hm.trusted.atOffset ip)

/-- A call goes on where an instruction begins. -/
theorem Secure.moves (hdiscreet : host.Discreet) (hmodest : host.Modest) (hm : m.Secure)
    (hframes : m.frames = f :: rest)
    (hlands : m.heap.LandsIn f.proto.blob ip) (hquiet : Quiet host (m.atOffset ip) q) :
    q.Guided := by
  have hleft := hquiet.undisturbed_atOffset hdiscreet hframes
  have hsteady := hm.steady hmodest hframes hquiet
  have hpos : 1 ≤ m.frames.length := by rw [hframes, List.length_cons]; omega
  have haligned := hm.aligned.resume hpos (le_refl _) ((Aims.innermost_iff hframes).2 hlands)
  rw [← frames_atOffset_eq] at haligned
  refine ⟨hsteady.trusted, ?_⟩
  rw [hleft.regions, hleft.completions]
  exact hsteady.aligned (hm.trusted.atOffset ip) haligned

theorem Secure.calls (hdiscreet : host.Discreet) (hmodest : host.Modest) (hm : m.Secure)
    (hframes : m.frames = f :: rest)
    (hlands : m.heap.LandsIn f.proto.blob ip) {base : Nat}
    (hcalled : Called host base (m.atOffset ip) m') :
    m'.Guided := by
  obtain ⟨q, q', r, c, hquiet, -, hr, hbinds, rfl⟩ := hcalled
  have hbound : Quiet host (m.atOffset ip) q' := hquiet.trans hbinds.quiet
  have hleft := hbound.undisturbed_atOffset hdiscreet hframes
  obtain ⟨htrusted, -⟩ := hm.moves hdiscreet hmodest hframes hlands hquiet
  obtain ⟨hbounded, haligned⟩ := hm.moves hdiscreet hmodest hframes hlands hbound
  have hclosure : q'.heap.get? r = some (.closure c) := by
    cases hbinds with
    | plain => exact hr
    | gathered items => exact (endures_alloc htrusted.heap _).fixed r _ trivial hr rfl
  have haccepted := (hbounded.closures r c hclosure).2
  have hfits : Fits _ q'.frames.length q'.regions q'.completions :=
    hleft.coherent (hm.coherent.atOffset ip)
  refine ⟨⟨hbounded.heap, hbounded.rest, hbounded.closures, fun g hg => ?_⟩, ?_⟩
  · rcases List.mem_cons.1 hg with rfl | hmem
    · exact ⟨c, hclosure, rfl⟩
    · exact hbounded.frames g hmem
  · exact haligned.call hfits haccepted.sane.streams.lands

theorem Secure.makes (hdiscreet : host.Discreet) (hmodest : host.Modest) (hm : m.Secure)
    (hframes : m.frames = f :: rest)
    (hop : m.opcode? = some .makeClosure) {function : Ref} {proto : Prototype}
    {upvalues : List Ref} {stack : Array Value}
    (hconstant : f.proto.blob.constantAt? (f.ip + 1) = some (.ref function))
    (hfunction : m.heap.get? function = some (.function proto))
    (hquiet : Quiet host (m.atOffset (f.ip + 3 + 3 * proto.captured)) q) :
    Guided { (q.alloc (.closure { function, proto, upvalues })).2 with stack } := by
  obtain ⟨r, proto', hr, hproto, haccepted, -, hlands⟩ := hm.exists_function hframes hop
  obtain rfl := Value.ref.inj (Option.some.inj (hr.symm.trans hconstant))
  obtain rfl := Object.function.inj (Option.some.inj (hproto.symm.trans hfunction))
  obtain ⟨htrusted, haligned⟩ := hm.moves hdiscreet hmodest hframes hlands hquiet
  have hsteady := hm.steady hmodest hframes hquiet
  have hneeds := hsteady.needs _ (frames_atOffset hframes _ ▸ List.mem_cons_self)
  obtain ⟨index, -, hindex⟩ := Option.bind_eq_some_iff.1 hconstant
  have hneeded : m.heap.Needs f.proto.blob r :=
    .constant (Array.mem_of_getElem? hindex) List.mem_cons_self
  have htrusts : q.heap.Trusts { function := r, proto := proto', upvalues } :=
    ⟨hneeds.fixed r _ hneeded hproto rfl,
      haccepted.persist hneeds fun _ hs => hneeded.of_function hproto hs⟩
  have hmade := htrusted.alloc fun c hc => Object.closure.inj hc ▸ htrusts
  exact ⟨hmade.trusted.of_frames rfl fun g hg => ⟨g, hg, rfl, rfl⟩, hmade.aligned htrusted haligned⟩

/-- The calls are some of those before. -/
theorem Secure.steers (hmodest : host.Modest) (hm : m.Secure) (hframes : m.frames = f :: rest)
    (hquiet : Quiet host (m.atOffset ip) q) {frames : List Frame}
    (hcalls : ∀ g ∈ frames, ∃ f ∈ m.frames, f.closure = g.closure ∧ f.proto = g.proto)
    (haligned : Aligned m.heap.LandsIn frames regions cs) : (q.steer frames regions cs).Guided :=
  (hm.steady hmodest hframes hquiet).carry hm.trusted rfl hcalls haligned

/-- Calls, regions and completions are left, and the next call goes on, perhaps in a finally
block. -/
theorem Secure.resumes (hmodest : host.Modest) (hm : m.Secure) (hframes : m.frames = f :: rest)
    (hquiet : Quiet host (m.atOffset ip) q) (hdepth : 1 ≤ depth ∧ depth ≤ m.frames.length)
    (hregions : regions ⊆ m.regions) (hcs : cs ⊆ m.completions)
    (htarget : Aims m.heap.LandsIn m.frames depth target) {c : Option Completion}
    (hc : ∀ completion a, c = some completion → completion.address? = some a →
      Aims m.heap.LandsIn m.frames depth a) :
    (q.steer (resumeAt m.frames depth target) regions (pendings regions depth c ++ cs)).Guided :=
  have haligned := (hm.aligned.shrink hregions hcs).begin hdepth.1 hdepth.2 htarget hc regions
  hm.steers hmodest hframes hquiet (fun _ => exists_of_mem_resumeAt) haligned

theorem Secure.enters (hmodest : host.Modest) (hm : m.Secure) (hframes : m.frames = f :: rest)
    (hop : m.opcode? = some .enterTry) {handler block : UInt16} {region : Region}
    (hhandler : f.proto.blob.shortAt? (f.ip + 3) = some handler)
    (hblock : f.proto.blob.shortAt? (f.ip + 5) = some block)
    (hregion : region.handler? = address? handler ∧ region.finally? = address? block ∧
      region.frameDepth = m.frames.length) :
    ((m.atOffset (f.ip + 7)).steer (m.atOffset (f.ip + 7)).frames (region :: m.regions)
      m.completions).Guided := by
  have hpos : 1 ≤ m.frames.length := by rw [hframes, List.length_cons]; omega
  have hbehind := (Aims.innermost_iff hframes).2 (hm.lands_behind hframes hop nofun)
  have haligned := hm.aligned.resume hpos (le_refl _) hbehind
  rw [frames_atOffset_eq]
  refine hm.steers hmodest hframes .refl (fun _ => exists_of_mem_resumeAt)
    (haligned.enter fun a ha => ?_)
  rw [hregion.1, hregion.2.1] at ha
  have haims := (Aims.innermost_iff hframes).2 (hm.lands_region hframes hop hhandler hblock ha)
  rw [hregion.2.2]
  exact haims.outer (prefix_streams_resumeAt _ _ _)

/-- The finally block of a region lies in the stream of the call that leaves the region if that call
has entered it. -/
theorem Secure.pops (hmodest : host.Modest) (hm : m.Secure) (hframes : m.frames = f :: rest)
    (hop : m.opcode? = some .popTry) {region : Region} {older : List Region}
    (hregions : m.regions = region :: older) (hown : region.frameDepth = m.frames.length) :
    ((m.atOffset (f.ip + 1)).steer
      (resumeAt m.frames m.frames.length (region.finally?.getD (f.ip + 1))) older
      (pendings older m.frames.length (region.finally?.map fun _ => .resume (f.ip + 1)) ++
        m.completions)).Guided := by
  have hpos : 1 ≤ m.frames.length := by rw [hframes, List.length_cons]; omega
  have hmem : region ∈ m.regions := hregions ▸ List.mem_cons_self
  have hold : older ⊆ m.regions := hregions ▸ List.subset_cons_self region older
  have hbehind : Aims m.heap.LandsIn m.frames m.frames.length (f.ip + 1) :=
    (Aims.innermost_iff hframes).2 (hm.lands_behind hframes hop nofun)
  have htarget : Aims m.heap.LandsIn m.frames m.frames.length
      (region.finally?.getD (f.ip + 1)) := by
    cases hfinally : region.finally? with
    | none => exact hbehind
    | some block => exact hown ▸ hm.aligned.regions region hmem block (Or.inr hfinally)
  refine hm.resumes hmodest hframes .refl ⟨hpos, le_refl _⟩ hold (List.Subset.refl _) htarget
    fun completion a hsome ha => ?_
  obtain ⟨_, -, rfl⟩ := Option.map_eq_some_iff.1 hsome
  exact Option.some.inj ha ▸ hbehind

/-- A turn keeps to the streams, unless it leaves a region of another call by its end. -/
theorem Turn.guided (hdiscreet : host.Discreet) (hmodest : host.Modest) (hturn : Turn host m m')
    (hm : m.Secure)
    (hown : m.opcode? = some .popTry → ∀ r ∈ m.regions.head?, r.frameDepth = m.frames.length) :
    m'.Guided := by
  have hinnermost {f : Frame} {rest : List Frame} (hframes : m.frames = f :: rest) :
      1 ≤ m.frames.length ∧ m.frames.length ≤ m.frames.length := by
    rw [hframes, List.length_cons]
    omega
  have hleaves {gone older : List Region} {region : Region}
      (hregions : m.regions = gone ++ region :: older) : region ∈ m.regions ∧ older ⊆ m.regions := by
    rw [hregions]
    exact ⟨List.mem_append_right gone List.mem_cons_self,
      fun r hr => List.mem_append_right gone (List.mem_cons_of_mem region hr)⟩
  cases hturn with
  | goes hframes hpasses hquiet =>
    exact hm.moves hdiscreet hmodest hframes (hm.lands_passes hframes hpasses) hquiet
  | makes hframes hop hconstant hfunction hquiet =>
    exact hm.makes hdiscreet hmodest hframes hop hconstant hfunction hquiet
  | @calls f rest op base m' hframes hop hplain hcalled =>
    have hother : op ≠ .makeClosure := by
      rintro rfl
      cases hplain
    exact hm.calls hdiscreet hmodest hframes (hm.lands_behind hframes hop hother) hcalled
  | enters hframes hop hhandler hblock hregion =>
    exact hm.enters hmodest hframes hop hhandler hblock hregion
  | @pops f rest region older hframes hop hregions =>
    exact hm.pops hmodest hframes hop hregions (hown hop region (by rw [hregions]; rfl))
  | @resumes f rest p cs ip stack hframes hop hcompletions hdepth hp =>
    have haddress : p.completion.address? = some ip := by
      rcases hp with hresume | ⟨e, hhandle⟩
      · rw [hresume]
        rfl
      · rw [hhandle]
        rfl
    have hmem : p ∈ m.completions := hcompletions ▸ List.mem_cons_self
    have htarget := hm.aligned.completions p hmem ip haddress
    rw [hdepth] at htarget
    have hkept : cs ⊆ m.completions := hcompletions ▸ List.subset_cons_self p cs
    have hquiet : Quiet host (m.atOffset ip) { m.atOffset ip with stack } := .stack .refl stack
    rw [frames_atOffset_eq]
    exact hm.resumes hmodest hframes hquiet (hinnermost hframes) (List.Subset.refl _) hkept htarget
      (c := none) nofun
  | @returns f rest v cs gone older region ip block q hframes hreturning hregions hgone hdepth
      hfinally hquiet =>
    obtain ⟨hmem, hold⟩ := hleaves hregions
    have htarget := hm.aligned.regions region hmem block (Or.inr hfinally)
    rw [hdepth] at htarget
    refine hm.resumes hmodest hframes hquiet (hinnermost hframes) hold hreturning.suffix.subset
      htarget fun completion a hsome ha => ?_
    obtain rfl := Option.some.inj hsome
    cases ha
  | @leaves f rest v cs gone older ip q hframes hrest hreturning hregions hgone holder hquiet =>
    have hkept : (cs.dropWhile fun p => decide (rest.length < p.frameDepth)) ⊆ m.completions :=
      ((List.dropWhile_suffix _).trans hreturning.suffix).subset
    have hold : older ⊆ m.regions := hregions ▸ List.subset_append_right gone older
    have haligned := (hm.aligned.shrink hold hkept).drop 1
    rw [hframes, List.drop_one, List.tail_cons] at haligned
    exact hm.steers hmodest hframes hquiet
      (fun g hg => ⟨g, hframes ▸ List.mem_cons_of_mem f hg, rfl, rfl⟩) haligned
  | @throws f rest e cs gone older region ip target c q hframes hthrowing hregions hgone hquiet
      hstops =>
    obtain ⟨hmem, hold⟩ := hleaves hregions
    have haims := hm.aligned.regions region hmem
    have hkept : (cs.dropWhile fun p => decide (older.length < p.tryDepth)) ⊆ m.completions :=
      ((List.dropWhile_suffix _).trans hthrowing.suffix).subset
    refine hm.resumes hmodest hframes hquiet (hm.coherent.regionDepth region hmem) hold hkept
      (haims target hstops.target_of) fun completion a hsome ha => ?_
    rw [hsome] at hstops
    exact haims a (Or.inl (hstops.address_of ha))

theorem Turn.secure (hdiscreet : host.Discreet) (hmodest : host.Modest) (hturn : Turn host m m')
    (hm : m.Secure)
    (hown : m.opcode? = some .popTry → ∀ r ∈ m.regions.head?, r.frameDepth = m.frames.length) :
    m'.Secure :=
  ⟨hturn.guided hdiscreet hmodest hm hown, hturn.coherent hdiscreet hm.coherent⟩

theorem Secure.collectIfDue (hm : m.Secure) : m.collectIfDue.Secure := by
  have hsteady := hm.trusted.collectIfDue
  refine ⟨⟨hsteady.trusted, ?_⟩, (undisturbed_collectIfDue m).coherent hm.coherent⟩
  rw [regions_collectIfDue, completions_collectIfDue]
  exact hsteady.aligned hm.trusted hm.aligned

end Machine

end ScriptMachine
