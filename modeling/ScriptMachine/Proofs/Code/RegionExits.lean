import ScriptMachine.Proofs.Code.Sufficiency
import ScriptMachine.Proofs.Machine.Footing.Instruction

/-!
Who leaves a region. Only the call that has entered a region uses its addresses, and that call is
over or goes on when the region is left: an exception and a return leave the regions of calls that
end with it, and their own. The end of a region takes the innermost region off whoever has entered
it, so a call without a region of its own that comes to such an end takes one of its callers'. As
long as this does not happen, every address is used in the stream it was checked for.
-/

namespace ScriptMachine.Machine

variable {host : Host} {m m' : Machine} {ms : Nat → Machine} {f : Frame} {rest : List Frame}
  {r : Region} {older : List Region} {depth n s t u : Nat}

/-- Whether the innermost call has entered a region and not yet left it. -/
def HasRegion (m : Machine) : Prop := ∃ r ∈ m.regions, r.frameDepth = m.frames.length

/-- The next instruction leaves a region of another call by its end. -/
def PopsForeign (m : Machine) : Prop :=
  m.opcode? = some .popTry ∧ m.regions ≠ [] ∧ ¬ m.HasRegion

instance (m : Machine) : Decidable m.HasRegion :=
  inferInstanceAs (Decidable (∃ r ∈ m.regions, r.frameDepth = m.frames.length))

instance (m : Machine) : Decidable m.PopsForeign :=
  inferInstanceAs (Decidable (_ ∧ _ ∧ ¬ m.HasRegion))

/-- The innermost region is one of the innermost call if any is. -/
theorem Nested.head_iff (hm : m.Nested) (hregions : m.regions = r :: older) :
    r.frameDepth = m.frames.length ↔ m.HasRegion := by
  have hmem : r ∈ m.regions := hregions ▸ List.mem_cons_self
  refine ⟨fun hdepth => ⟨r, hmem, hdepth⟩, ?_⟩
  rintro ⟨own, hown, hdepth⟩
  have hsorted := hm.sorted
  have hle := (hm.depths r hmem).2
  rw [hregions] at hown hsorted
  rcases List.mem_cons.1 hown with rfl | hlater
  · exact hdepth
  · have hbelow := (List.pairwise_cons.1 hsorted).1 own hlater
    omega

theorem Nested.popsForeign_iff (hm : m.Nested) (hop : m.opcode? = some .popTry)
    (hregions : m.regions = r :: older) :
    m.PopsForeign ↔ r.frameDepth ≠ m.frames.length := by
  have hsome : m.regions ≠ [] := hregions ▸ List.cons_ne_nil r older
  rw [Ne, hm.head_iff hregions]
  exact ⟨fun h => h.2.2, fun h => ⟨hop, hsome, h⟩⟩

/-! The end of a region. -/

theorem popTry_none (hregions : m.regions = []) :
    popTry m = .error (.fault (.internal .noRegion)) m := by
  unfold popTry
  rw [get_bind, hregions]
  rfl

theorem popTry_some (hframes : m.frames = f :: rest) (hregions : m.regions = r :: older) :
    ∃ m', popTry m = .ok () m' ∧ m'.regions = older ∧ m'.frames.length = m.frames.length := by
  let left : Machine := { m with regions := older }
  have hleft : left.frames = f :: rest := hframes
  unfold popTry
  rw [get_bind, hregions]
  cases hfinally : r.finally? with
  | none =>
    dsimp only
    rw [hfinally]
    exact ⟨left, rfl, rfl, rfl⟩
  | some block =>
    let pending : Pending :=
      { tryDepth := older.length, frameDepth := m.frames.length, completion := .resume f.ip }
    let pushed : Machine := { left with completions := pending :: m.completions }
    have hpush : pushCompletion (.resume f.ip) left = .ok () pushed := rfl
    dsimp only
    rw [hfinally, set_bind]
    dsimp only
    rw [bind_of_ok (frame_eq hleft), bind_of_ok hpush,
      jumpTo_eq (show pushed.frames = f :: rest from hframes)]
    exact ⟨_, rfl, rfl, length_frames_atOffset pushed block⟩

/-- Without any region, the end of one is a fault. -/
theorem step_popTry_none (host : Host) (hop : m.opcode? = some .popTry)
    (hregions : m.regions = []) :
    ∃ q, step host m = .error (.fault (.internal .noRegion)) q ∧ q.regions = [] := by
  obtain ⟨f, rest, hframes⟩ := exists_frame_of_opcode hop
  have hsame : m.collectIfDue.frames = f :: rest := (frames_collectIfDue m).trans hframes
  let behind := m.collectIfDue.atOffset (f.ip + 1)
  have hnone : behind.regions = [] := (regions_collectIfDue m).trans hregions
  have hexecute : execute host f.ip .popTry behind = .error (.fault (.internal .noRegion)) behind :=
    bind_of_error (popTry_none hnone) _
  refine ⟨behind, ?_, hnone⟩
  unfold step
  rw [modify_bind, instruction_eq hsame ((opcode?_collectIfDue m).trans hop)]
  unfold throwing
  rw [hexecute]

/-- With a region, the end of one takes the innermost one off, and the run goes on. -/
theorem step_popTry_some (host : Host) (hop : m.opcode? = some .popTry)
    (hregions : m.regions = r :: older) :
    ∃ m', step host m = .ok none m' ∧ m'.regions = older ∧
      m'.frames.length = m.frames.length := by
  obtain ⟨f, rest, hframes⟩ := exists_frame_of_opcode hop
  have hsame : m.collectIfDue.frames = f :: rest := (frames_collectIfDue m).trans hframes
  let behind := m.collectIfDue.atOffset (f.ip + 1)
  have hmoved : behind.frames = { f with ip := f.ip + 1 } :: rest := frames_atOffset hsame _
  have hthere : behind.regions = r :: older := (regions_collectIfDue m).trans hregions
  obtain ⟨m', hok, hleft, hlength⟩ := popTry_some hmoved hthere
  have hexecute : execute host f.ip .popTry behind = .ok none m' := bind_of_ok hok _
  refine ⟨m', ?_, hleft, ?_⟩
  · unfold step
    rw [modify_bind, instruction_eq_ok hsame ((opcode?_collectIfDue m).trans hop) hexecute]
  · rw [hlength, length_frames_atOffset, frames_collectIfDue]

/-! Regions that are left. -/

theorem mem_leftRegions {gone : List Region} {region : Region}
    (hregions : m.regions = gone ++ region :: m'.regions) (hr : r ∈ leftRegions m m') :
    r ∈ gone ∨ r = region := by
  have hthrough : m.regions = (gone ++ [region]) ++ m'.regions := by
    rw [hregions, List.append_assoc, List.singleton_append]
  rw [leftRegions_eq hthrough] at hr
  rcases List.mem_append.1 hr with hmem | hmem
  · exact Or.inl hmem
  · exact Or.inr (List.mem_singleton.1 hmem)

/-- A turn leaves regions of calls that end with it, and of the call that goes on. -/
theorem Turn.leaves_own (hdiscreet : host.Discreet) (hturn : Turn host m m') (hm : m.Coherent)
    (hown : ¬ m.PopsForeign) : ∀ r ∈ leftRegions m m', m'.frames.length ≤ r.frameDepth := by
  have hnone (hregions : m.regions.length ≤ m'.regions.length) :
      ∀ r ∈ leftRegions m m', m'.frames.length ≤ r.frameDepth := by
    unfold leftRegions
    rw [Nat.sub_eq_zero_of_le hregions, List.take_zero]
    nofun
  cases hturn with
  | goes hframes _ hquiet | makes hframes _ _ _ hquiet =>
    have hleft := hquiet.undisturbed_atOffset hdiscreet hframes
    exact hnone (Nat.le_of_eq (congrArg List.length hleft.regions).symm)
  | calls hframes _ _ hcalled =>
    obtain ⟨q, r, proto, hleft, rfl⟩ := hcalled.undisturbed_atOffset hdiscreet hframes
    exact hnone (Nat.le_of_eq (congrArg List.length hleft.regions).symm)
  | enters => exact hnone (Nat.le_succ _)
  | resumes => exact hnone (le_refl _)
  | @pops f _ region older hframes hop hregions =>
    intro r hr
    have hdepth : region.frameDepth = m.frames.length := by
      by_contra hother
      exact hown ((hm.nested.popsForeign_iff hop hregions).2 hother)
    have hlength : (resumeAt m.frames m.frames.length (region.finally?.getD (f.ip + 1))).length =
        m.frames.length := length_resumeAt (le_refl _) _
    have hgone : m.regions = [] ++ region :: older := hregions
    obtain rfl := (mem_leftRegions hgone hr).resolve_left nofun
    exact Nat.le_of_eq (hlength.trans hdepth.symm)
  | @returns _ _ _ _ gone older region ip block q _ _ hregions hgone hdepth =>
    intro r hr
    have hlength : (resumeAt m.frames m.frames.length block).length = m.frames.length :=
      length_resumeAt (le_refl _) _
    have hsame : r.frameDepth = m.frames.length := by
      rcases mem_leftRegions hregions hr with hmem | rfl
      · exact (hgone r hmem).1
      · exact hdepth
    exact Nat.le_of_eq (hlength.trans hsame.symm)
  | @leaves _ rest _ _ gone older ip q hframes _ _ hregions hgone =>
    intro r hr
    rw [leftRegions_eq hregions] at hr
    have hlength : m.frames.length = rest.length + 1 := congrArg List.length hframes
    rw [(hgone r hr).1]
    show rest.length ≤ _
    omega
  | @throws _ _ _ _ gone older region ip target c q _ _ hregions =>
    intro r hr
    have hsorted := hm.nested.sorted
    rw [hregions] at hsorted
    have hlength : (resumeAt m.frames region.frameDepth target).length = region.frameDepth :=
      length_resumeAt (hm.regionDepth region (by simp [hregions])).2 _
    refine hlength.trans_le ?_
    rcases mem_leftRegions hregions hr with hmem | rfl
    · exact (List.pairwise_append.1 hsorted).2.2 r hmem region List.mem_cons_self
    · exact le_refl _

/-! Calls that stay. -/

/-- The call at a depth, wherever it has got to; the outermost call has depth one. -/
def callAt? (m : Machine) (depth : Nat) : Option Frame := m.calls.reverse[depth - 1]?

theorem callAt?_of_step (hpos : 1 ≤ depth) (hbefore : depth ≤ m.calls.length)
    (hafter : depth ≤ m'.calls.length)
    (hstep : (∃ f, m'.calls = f :: m.calls) ∨ ∃ k, m'.calls = m.calls.drop k) :
    m'.callAt? depth = m.callAt? depth := by
  unfold callAt?
  rcases hstep with ⟨f, hcall⟩ | ⟨k, hdrop⟩
  · rw [hcall, List.reverse_cons, List.getElem?_append_left (by rw [List.length_reverse]; omega)]
  · have hsplit : m.calls.reverse = m'.calls.reverse ++ (m.calls.take k).reverse := by
      rw [hdrop, ← List.reverse_append, List.take_append_drop]
    rw [hsplit, List.getElem?_append_left (by rw [List.length_reverse]; omega)]

/-- As long as there are as many calls as a depth says, the call at that depth stays. -/
theorem Follows.callAt?_eq (hdiscreet : host.Discreet) (hlaunched : Launched host (ms 0))
    (hfollows : Follows host ms n) (ht : t ≤ n) (hpos : 1 ≤ depth)
    (hunder : UnderWay ms depth s t) (hst : s ≤ t) :
    (ms t).callAt? depth = (ms s).callAt? depth := by
  induction t, hst using Nat.le_induction with
  | base => rfl
  | succ t hst ih =>
    have hbefore := hunder t hst (Nat.le_succ t)
    have hafter := hunder (t + 1) (by omega) (le_refl _)
    rw [← length_calls] at hbefore hafter
    rw [callAt?_of_step hpos hbefore hafter (hfollows.calls_step hdiscreet hlaunched ht)]
    exact ih (by omega) fun u hsu hut => hunder u hsu (by omega)

/-- The innermost call stands at the depth that counts all calls. -/
theorem callAt?_length (hframes : m.frames = f :: rest) :
    m.callAt? m.frames.length = some { f with ip := 0 } := by
  unfold callAt? calls
  rw [hframes, List.map_cons, List.reverse_cons, List.length_cons, Nat.add_sub_cancel,
    List.getElem?_append_right (by simp)]
  simp

/-! Regions that were entered. -/

/-- A region as a call enters it: the operands of the instruction are its addresses, and they are
good for the stream of the call. -/
structure Enters (m : Machine) (f : Frame) (r : Region) : Prop where
  head : m.frames.head? = some f
  opcode : m.opcode? = some .enterTry
  depth : r.frameDepth = m.frames.length
  handler : ∃ n, f.proto.blob.shortAt? (f.ip + 3) = some n ∧ r.handler? = address? n
  block : ∃ n, f.proto.blob.shortAt? (f.ip + 5) = some n ∧ r.finally? = address? n

/-- A turn after which there is a region more has entered it. -/
theorem Turn.enters_region (hdiscreet : host.Discreet) (hturn : Turn host m m')
    (hregions : m'.regions = r :: m.regions) : ∃ f, m.Enters f r := by
  have hmore : ¬ m'.regions.length ≤ m.regions.length := by
    rw [hregions, List.length_cons]
    omega
  cases hturn with
  | goes hframes _ hquiet | makes hframes _ _ _ hquiet =>
    have hleft := hquiet.undisturbed_atOffset hdiscreet hframes
    exact absurd (Nat.le_of_eq (congrArg List.length hleft.regions)) hmore
  | calls hframes _ _ hcalled =>
    obtain ⟨q, r, proto, hleft, rfl⟩ := hcalled.undisturbed_atOffset hdiscreet hframes
    exact absurd (Nat.le_of_eq (congrArg List.length hleft.regions)) hmore
  | @enters f _ _ _ region hframes hop hhandler hblock hregion =>
    obtain rfl : region = r := (List.cons.inj hregions).1
    exact ⟨f, by rw [hframes, List.head?_cons], hop, hregion.2.2, ⟨_, hhandler, hregion.1⟩,
      ⟨_, hblock, hregion.2.1⟩⟩
  | resumes => exact absurd (le_refl _) hmore
  | pops _ _ hthere => exact absurd (by rw [hthere]; exact Nat.le_succ _) hmore
  | returns _ _ hthere | leaves _ _ _ hthere | throws _ _ hthere =>
    refine absurd ?_ hmore
    rw [hthere, List.length_append]
    simp only [steer, List.length_cons]
    omega

/-! Runs. -/

/-- How the regions of a machine of a run are left. -/
structure LeavesOwn (host : Host) (ms : Nat → Machine) (t : Nat) : Prop where
  /-- The end of a region takes off just the innermost one, which is one of the innermost call
  exactly if that call has any. -/
  pops : (ms t).opcode? = some .popTry → ∀ r older, (ms t).regions = r :: older →
    ∃ m', step host (ms t) = .ok none m' ∧ m'.regions = older ∧
      m'.frames.length = (ms t).frames.length ∧
        (r.frameDepth = (ms t).frames.length ↔ (ms t).HasRegion)
  /-- Without any region it is a fault. -/
  underflows : (ms t).opcode? = some .popTry → (ms t).regions = [] →
    ∃ q, step host (ms t) = .error (.fault (.internal .noRegion)) q ∧ q.regions = []
  /-- Each region was entered by a call that is the one at its depth ever since. -/
  entered : ∀ s r, (s, r) ∈ regionLedger ms t → s < t ∧ (ms (s + 1)).regions = r :: (ms s).regions ∧
    ∃ f, (ms s).Enters f r ∧
      ∀ u, s ≤ u → u ≤ t → (ms u).callAt? r.frameDepth = some { f with ip := 0 }
  ledger : (regionLedger ms t).map Prod.snd = (ms t).regions
  /-- All offsets, and all addresses of regions and completions, begin instructions of the stream of
  the call they belong to. -/
  aligned : Aligned (ms t).heap.LandsIn (ms t).frames (ms t).regions (ms t).completions
  /-- Where no region of another call is left by its end, a step leaves regions of calls that are
  over then, or of the call that goes on. -/
  leaves : ¬ (ms t).PopsForeign → ∀ m', step host (ms t) = .ok none m' →
    ∀ r ∈ leftRegions (ms t) m', m'.frames.length ≤ r.frameDepth

theorem Follows.entered (hdiscreet : host.Discreet) (hlaunched : Launched host (ms 0))
    (hfollows : Follows host ms n) (ht : t ≤ n) (hmem : (s, r) ∈ regionLedger ms t) :
    s < t ∧ (ms (s + 1)).regions = r :: (ms s).regions ∧ ∃ f, (ms s).Enters f r ∧
      ∀ u, s ≤ u → u ≤ t → (ms u).callAt? r.frameDepth = some { f with ip := 0 } := by
  obtain ⟨hs, -, hregions, hdepth, hunder⟩ :=
    hfollows.region_entered hdiscreet hlaunched ht hmem
  have hturn := hfollows.turn hdiscreet hlaunched (show s < n by omega)
  obtain ⟨f, hhead, hop, hthere, hhandler, hfinally⟩ := hturn.enters_region hdiscreet
    (by rw [regions_collectIfDue]; exact hregions)
  rw [opcode?_collectIfDue] at hop
  rw [frames_collectIfDue] at hhead hthere
  refine ⟨hs, hregions, f, ⟨hhead, hop, hthere, hhandler, hfinally⟩, fun u hsu hut => ?_⟩
  obtain ⟨rest, hframes⟩ := List.head?_eq_some_iff.1 hhead
  have hpos : 1 ≤ r.frameDepth := by
    rw [← hdepth, hframes, List.length_cons]
    omega
  rw [hfollows.callAt?_eq hdiscreet hlaunched (show u ≤ n by omega) hpos
    (fun v hsv hvu => hunder v hsv (by omega)) hsu, ← hdepth]
  exact callAt?_length hframes

/-- A script that the check accepts is run by a machine whose calls and closures are trusted. While
no call leaves a region of another one by its end, each region is left by the call that has entered
it or when that call is over, and its addresses are used in the stream of that call only. -/
theorem regions_left_by_their_calls (hdiscreet : host.Discreet) (hmodest : host.Modest)
    (hm : m.Trusted) (hframes : m.frames = []) (hsettled : m.Settled) {proto : Prototype}
    (hcheck : Validation.check m.heap proto.blob = .ok ()) (hstart : ms 0 = m.entered proto)
    (hfollows : Follows host ms n) (hown : ∀ u < t, ¬ (ms u).PopsForeign) (ht : t ≤ n) :
    LeavesOwn host ms t := by
  have hlaunched : Launched host (ms 0) := hstart ▸ .script hframes hsettled proto
  have hcoherent {u : Nat} (hu : u ≤ n) : (ms u).Coherent :=
    hfollows.coherent hdiscreet hlaunched hu
  have hsecure : (ms t).Secure := by
    have hentered : (ms 0).Secure :=
      hstart ▸ hm.secure_entered hdiscreet hframes hsettled hcheck
    have hshort : Follows host ms t := fun u hu => hfollows u (by omega)
    refine hshort.secure hdiscreet hmodest hlaunched hentered (fun u hu hop r hr => ?_) (le_refl t)
    obtain ⟨older, hregions⟩ := List.head?_eq_some_iff.1 hr
    by_contra hother
    exact hown u hu (((hcoherent (by omega)).nested.popsForeign_iff hop hregions).2 hother)
  exact {
    pops := fun hop r older hregions => by
      obtain ⟨m', hok, hleft, hlength⟩ := step_popTry_some host hop hregions
      exact ⟨m', hok, hleft, hlength, (hcoherent ht).nested.head_iff hregions⟩
    underflows := step_popTry_none host
    entered := fun s r hmem => hfollows.entered hdiscreet hlaunched ht hmem
    ledger := (hfollows.stacked_regions hdiscreet hlaunched).map_snd ht
    aligned := hsecure.aligned
    leaves := fun hforeign m' hstep r hr => by
      have hturn := turn_of_step hdiscreet (hcoherent ht) hstep
      have hdue := (undisturbed_collectIfDue (ms t)).coherent (hcoherent ht)
      refine hturn.leaves_own hdiscreet hdue ?_ r ?_
      · unfold PopsForeign HasRegion at hforeign ⊢
        rwa [opcode?_collectIfDue, regions_collectIfDue, frames_collectIfDue]
      · unfold leftRegions at hr ⊢
        rwa [regions_collectIfDue] }

/-- The script leaves its region by its end, and its call is the one that has entered it. -/
theorem regions_left_by_their_calls_cleanupScript :
    let ms := states .idle (bare.entered (.script cleanupScript))
    (ms 1).opcode? = some .popTry ∧ (ms 1).HasRegion ∧ (ms 1).regions ≠ [] ∧
      LeavesOwn .idle ms 1 := by
  intro ms
  have hfollows : Follows .idle ms 2 := follows_states (show ∀ t < 2, _ by decide +kernel)
  have hown : ∀ u < 1, ¬ (ms u).PopsForeign := by decide +kernel
  exact ⟨by decide +kernel, by decide +kernel, by decide +kernel,
    regions_left_by_their_calls Host.discreet_idle Host.modest_idle trusted_bare rfl
      (fun _ => ⟨rfl, rfl, rfl⟩) (by cbv) rfl hfollows hown (by decide)⟩

end ScriptMachine.Machine
