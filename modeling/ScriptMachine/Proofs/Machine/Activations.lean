import ScriptMachine.Proofs.Machine.Footing.Instruction
import ScriptMachine.Proofs.Machine.Runs
import Mathlib

/-!
Calls preserve the caller. While a call is under way nothing below its slot of the callee is
touched, except through the open cells of captured variables; its callers stand still, and the
regions they have entered are not left. So when the call returns, its caller goes on behind the
instruction that called, with the value of the call in place of callee and arguments.
-/

namespace ScriptMachine.Machine

variable {host : Host} {m m' q : Machine} {ms : Nat → Machine} {f g : Frame}
  {rest callers frames : List Frame} {op : Opcode} {d n s t : Nat} {v : Value}

/-! The calls under way. -/

/-- A call is under way, and newer calls have their slots no deeper. -/
def Above (g : Frame) (callers frames : List Frame) : Prop :=
  ∃ newer ip, frames = newer ++ { g with ip } :: callers ∧ ∀ h ∈ newer, g.base ≤ h.base

theorem Above.calls (habove : Above g callers frames) {h : Frame} (hbase : g.base ≤ h.base)
    (ip : Nat) : Above g callers (h :: frames.modifyHead fun f => { f with ip }) := by
  obtain ⟨newer, at', rfl, hnewer⟩ := habove
  cases newer with
  | nil => exact ⟨[h], ip, rfl, by simpa using hbase⟩
  | cons f newer =>
    refine ⟨h :: { f with ip } :: newer, at', rfl, ?_⟩
    intro k hk
    simp only [List.mem_cons] at hk
    rcases hk with rfl | rfl | hmem
    · exact hbase
    · exact hnewer f List.mem_cons_self
    · exact hnewer k (List.mem_cons_of_mem f hmem)

/-- Newer calls come to an end, and the innermost one that is left goes on somewhere. -/
theorem Above.drop (habove : Above g callers frames) {k ip : Nat}
    (hdepth : callers.length + k < frames.length) :
    Above g callers ((frames.drop k).modifyHead fun f => { f with ip }) := by
  obtain ⟨newer, at', rfl, hnewer⟩ := habove
  have hk : k ≤ newer.length := by
    rw [List.length_append, List.length_cons] at hdepth
    omega
  rw [List.drop_append_of_le_length hk]
  have hleft : ∀ h ∈ newer.drop k, g.base ≤ h.base := fun h hh => hnewer h (List.mem_of_mem_drop hh)
  cases hdrop : newer.drop k with
  | nil => exact ⟨[], ip, rfl, nofun⟩
  | cons f newer' =>
    rw [hdrop] at hleft
    refine ⟨{ f with ip } :: newer', at', rfl, ?_⟩
    intro h hh
    rcases List.mem_cons.1 hh with rfl | hmem
    · exact hleft f List.mem_cons_self
    · exact hleft h (List.mem_cons_of_mem f hmem)

theorem Above.base_le_head (habove : Above g callers frames) (hhead : frames.head? = some f) :
    g.base ≤ f.base := by
  obtain ⟨newer, ip, rfl, hnewer⟩ := habove
  cases newer with
  | nil =>
    obtain rfl := Option.some.inj hhead
    exact le_refl g.base
  | cons h newer =>
    obtain rfl := Option.some.inj hhead
    exact hnewer h List.mem_cons_self

/-- What a turn makes of the calls. Calls come to an end, or one begins. -/
theorem Turn.frames_cases (hdiscreet : host.Discreet) (hturn : Turn host m m') :
    (∃ k ip, k ≤ m.frames.length ∧
      m'.frames = (m.frames.drop k).modifyHead fun f => { f with ip }) ∨
      ∃ f rest op h, m.frames = f :: rest ∧ m.opcode? = some op ∧
        m'.frames = h :: { f with ip := f.ip + op.layout.width 0 } :: rest := by
  have hmoved (ip : Nat) (h : m'.frames = (m.atOffset ip).frames) : ∃ k ip, k ≤ m.frames.length ∧
      m'.frames = (m.frames.drop k).modifyHead fun f => { f with ip } :=
    ⟨0, ip, Nat.zero_le _, h⟩
  have hresumed (depth ip : Nat) (h : m'.frames = resumeAt m.frames depth ip) :
      ∃ k ip, k ≤ m.frames.length ∧
        m'.frames = (m.frames.drop k).modifyHead fun f => { f with ip } :=
    ⟨m.frames.length - depth, ip, Nat.sub_le _ _, h⟩
  cases hturn with
  | goes hframes _ hquiet =>
    exact Or.inl (hmoved _ (hquiet.undisturbed_atOffset hdiscreet hframes).frames)
  | makes hframes _ _ _ hquiet =>
    exact Or.inl (hmoved _ (hquiet.undisturbed_atOffset hdiscreet hframes).frames)
  | @calls f rest op base m' hframes hop _ hcalled =>
    obtain ⟨q, r, proto, hleft, rfl⟩ := hcalled.undisturbed_atOffset hdiscreet hframes
    have hsame := hleft.frames
    rw [frames_atOffset hframes] at hsame
    exact Or.inr ⟨f, rest, op, _, hframes, hop, congrArg (List.cons _) hsame⟩
  | enters => exact Or.inl (hmoved _ rfl)
  | pops => exact Or.inl (hresumed _ _ rfl)
  | resumes => exact Or.inl (hmoved _ rfl)
  | returns => exact Or.inl (hresumed _ _ rfl)
  | @leaves f rest v cs gone older ip q hframes =>
    have hdrop : m.frames.drop 1 = rest := by rw [hframes, List.drop_one, List.tail_cons]
    have hone := one_le_length hframes
    cases rest with
    | nil => exact Or.inl ⟨1, 0, hone, by rw [hdrop]; rfl⟩
    | cons h rest => exact Or.inl ⟨1, h.ip, hone, by rw [hdrop]; rfl⟩
  | throws => exact Or.inl (hresumed _ _ rfl)

/-! The regions of the callers. -/

/-- The regions that the outermost calls have entered. -/
def outerRegions (d : Nat) (regions : List Region) : List Region :=
  regions.filter fun r => decide (r.frameDepth ≤ d)

theorem outerRegions_append {gone regions : List Region} (hgone : ∀ r ∈ gone, d < r.frameDepth) :
    outerRegions d (gone ++ regions) = outerRegions d regions := by
  have hnone : gone.filter (fun r => decide (r.frameDepth ≤ d)) = [] := by
    refine List.filter_eq_nil_iff.2 fun r hr => ?_
    have hdeep := hgone r hr
    rw [decide_eq_true_eq]
    omega
  unfold outerRegions
  rw [List.filter_append, hnone, List.nil_append]

theorem outerRegions_cons {r : Region} {regions : List Region} (hr : d < r.frameDepth) :
    outerRegions d (r :: regions) = outerRegions d regions := by
  have hgone : ∀ s ∈ [r], d < s.frameDepth := by
    rintro s hs
    rw [List.mem_singleton.1 hs]
    exact hr
  exact outerRegions_append hgone

theorem outerRegions_eq_self {regions : List Region} (h : ∀ r ∈ regions, r.frameDepth ≤ d) :
    outerRegions d regions = regions :=
  List.filter_eq_self.2 fun r hr => by rw [decide_eq_true_eq]; exact h r hr

/-- The end of a try region leaves a region of the innermost call. -/
def PopsOwn (m : Machine) : Prop :=
  m.opcode? = some .popTry → ∀ r ∈ m.regions.head?, r.frameDepth = m.frames.length

/-- A turn of newer calls leaves no region of older ones. -/
theorem Turn.outerRegions_eq (hdiscreet : host.Discreet) (hm : m.Coherent) (hturn : Turn host m m')
    (hdepth : d < m.frames.length) (hdepth' : d < m'.frames.length) (howns : m.PopsOwn) :
    outerRegions d m'.regions = outerRegions d m.regions := by
  cases hturn with
  | goes hframes _ hquiet =>
    rw [(hquiet.undisturbed_atOffset hdiscreet hframes).regions]
    rfl
  | @makes f rest function proto upvalues q stack hframes _ _ _ hquiet =>
    show outerRegions d q.regions = _
    rw [(hquiet.undisturbed_atOffset hdiscreet hframes).regions]
    rfl
  | calls hframes _ _ hcalled =>
    obtain ⟨q, r, proto, hleft, rfl⟩ := hcalled.undisturbed_atOffset hdiscreet hframes
    show outerRegions d q.regions = _
    rw [hleft.regions]
    rfl
  | @enters f rest handler block region hframes _ _ _ hregion _ =>
    show outerRegions d (region :: m.regions) = _
    exact outerRegions_cons (by rw [hregion.2.2]; exact hdepth)
  | @pops f rest region older hframes hop hregions =>
    have hregion : region.frameDepth = m.frames.length := howns hop region (by rw [hregions]; rfl)
    rw [hregions]
    exact (outerRegions_cons (by rw [hregion]; exact hdepth)).symm
  | resumes => rfl
  | @returns f rest v cs gone older region ip block q hframes _ hregions hgone hregion _ hquiet =>
    have hthrough : m.regions = (gone ++ [region]) ++ older := by
      rw [hregions, List.append_assoc, List.singleton_append]
    rw [hthrough]
    refine (outerRegions_append fun r hr => ?_).symm
    rcases List.mem_append.1 hr with hmem | hmem
    · rw [(hgone r hmem).1]
      exact hdepth
    · rw [List.mem_singleton.1 hmem, hregion]
      exact hdepth
  | @leaves f rest v cs gone older ip q hframes _ _ hregions hgone _ hquiet =>
    rw [hregions]
    refine (outerRegions_append fun r hr => ?_).symm
    rw [(hgone r hr).1]
    exact hdepth
  | @throws f rest e cs gone older region ip target c q hframes _ hregions _ hquiet _ =>
    have hbounds := hm.regionDepth region (by
      rw [hregions]
      exact List.mem_append_right gone List.mem_cons_self)
    have hback : d < (resumeAt m.frames region.frameDepth target).length := hdepth'
    rw [length_resumeAt hbounds.2] at hback
    have hsorted := hm.regionOrder
    rw [hregions] at hsorted
    have hthrough : m.regions = (gone ++ [region]) ++ older := by
      rw [hregions, List.append_assoc, List.singleton_append]
    rw [hthrough]
    refine (outerRegions_append fun r hr => ?_).symm
    rcases List.mem_append.1 hr with hmem | hmem
    · have hle := (List.pairwise_append.1 hsorted).2.2 r hmem region List.mem_cons_self
      omega
    · rw [List.mem_singleton.1 hmem]
      exact hback

/-- An instruction that begins a call leaves the regions as they are. -/
theorem Turn.regions_of_longer (hdiscreet : host.Discreet) (hm : m.Coherent)
    (hturn : Turn host m m') (hlonger : m.frames.length < m'.frames.length) :
    m'.regions = m.regions := by
  have hmoved (ip : Nat) : ¬ m.frames.length < (m.atOffset ip).frames.length :=
    Nat.not_lt_of_le (Nat.le_of_eq (length_frames_atOffset m ip))
  have hresumed (ip : Nat) : ¬ m.frames.length < (resumeAt m.frames m.frames.length ip).length :=
    Nat.not_lt_of_le (Nat.le_of_eq (length_resumeAt (le_refl m.frames.length) ip))
  cases hturn with
  | goes hframes _ hquiet => exact (hquiet.undisturbed_atOffset hdiscreet hframes).regions
  | makes hframes _ _ _ hquiet => exact (hquiet.undisturbed_atOffset hdiscreet hframes).regions
  | calls hframes _ _ hcalled =>
    obtain ⟨q, r, proto, hleft, rfl⟩ := hcalled.undisturbed_atOffset hdiscreet hframes
    exact hleft.regions
  | enters => exact absurd hlonger (hmoved _)
  | pops => exact absurd hlonger (hresumed _)
  | resumes => rfl
  | returns => exact absurd hlonger (hresumed _)
  | @leaves f rest v cs gone older ip q hframes =>
    rw [hframes, List.length_cons] at hlonger
    change rest.length + 1 < rest.length at hlonger
    omega
  | @throws f rest e cs gone older region ip target c q hframes _ hregions =>
    have hbounds := hm.regionDepth region (by
      rw [hregions]
      exact List.mem_append_right gone List.mem_cons_self)
    have hback : m.frames.length < (resumeAt m.frames region.frameDepth target).length := hlonger
    rw [length_resumeAt hbounds.2] at hback
    omega

/-! The stack of the callers. -/

/-- The next instruction writes a slot through an open cell. -/
def Overwrites (m : Machine) (slot : Nat) : Prop :=
  m.opcode? = some .upvalueSet ∧ ∃ r, m.cell? = some r ∧ m.heap.openSlot? r = some slot

/-- A slot that an instruction writes where it stands is a variable of the innermost call, or has
a cell, or is that of a callee, or ends up on top. -/
theorem touched?_cases {slot : Nat} (h : m.touched? = some slot) :
    (∃ f, m.frames.head? = some f ∧ f.base ≤ slot) ∨ m.Overwrites slot ∨
      m.callee? = some slot ∨ m.replaced? = some slot := by
  unfold touched? at h
  cases hassignment : m.assignment? with
  | none =>
    rw [hassignment] at h
    cases hcallee : m.callee? with
    | none =>
      rw [hcallee] at h
      exact Or.inr (Or.inr (Or.inr h))
    | some k =>
      rw [hcallee] at h
      exact Or.inr (Or.inr (Or.inl h))
  | some s =>
    rw [hassignment] at h
    obtain rfl := Option.some.inj h
    have hlocal {slot : Nat} (h : m.localSlot? = some slot) :
        ∃ f, m.frames.head? = some f ∧ f.base ≤ slot := by
      obtain ⟨f, hf, hn⟩ := Option.bind_eq_some_iff.1 h
      obtain ⟨n, -, rfl⟩ := Option.map_eq_some_iff.1 hn
      exact ⟨f, hf, Nat.le_add_right _ _⟩
    unfold assignment? at hassignment
    split at hassignment
    · obtain ⟨slot, hslot, hv⟩ := Option.bind_eq_some_iff.1 hassignment
      obtain ⟨v, -, rfl⟩ := Option.map_eq_some_iff.1 hv
      exact Or.inl (hlocal hslot)
    · obtain ⟨slot, hslot, hv⟩ := Option.bind_eq_some_iff.1 hassignment
      split at hv
      · obtain ⟨v, -, rfl⟩ := Option.map_eq_some_iff.1 hv
        exact Or.inl (hlocal hslot)
      · cases hv
    · rename_i hop
      obtain ⟨slot, hslot, hv⟩ := Option.bind_eq_some_iff.1 hassignment
      obtain ⟨v, -, rfl⟩ := Option.map_eq_some_iff.1 hv
      obtain ⟨r, hr, hopen⟩ := Option.bind_eq_some_iff.1 hslot
      exact Or.inr (Or.inl ⟨hop, r, hr, hopen⟩)
    · cases hassignment

theorem rests_departing (m : Machine) : Rests 0 none m.stack m.departing.stack := by
  unfold departing
  split
  · exact .pop m.stack
  · exact .refl m.stack

theorem pred_size_le_departing (m : Machine) : m.stack.size - 1 ≤ m.departing.stack.size := by
  unfold departing
  split
  · exact Nat.le_of_eq Array.size_pop.symm
  · exact Nat.sub_le _ _

theorem pushes_le (op : Opcode) : op.pushes ≤ 1 := by cases op <;> decide

/-- An instruction leaves the slots below a base alone that the innermost call, the next callee and
the stack do not go below. -/
theorem Handled.below {base i : Nat} (hhandled : Handled host m m')
    (hhead : ∀ f ∈ m.frames.head?, base ≤ f.base)
    (hreach : ∀ k ∈ m.reach?, base + k ≤ m.stack.size) (htall : base < m'.stack.size)
    (hi : i < base) (hfree : ¬ m.Overwrites i) : m'.stack[i]? = m.stack[i]? := by
  have hcallee : ∀ slot ∈ m.callee?, base ≤ slot := by
    intro slot hslot
    obtain ⟨k, hk, rfl⟩ := Option.map_eq_some_iff.1 hslot
    have hbound := hreach k hk
    omega
  cases hhandled with
  | carried hcalm hfootprint =>
    cases hfootprint with
    | @works op m' hop _ _ _ hrests _ hreplaced =>
      have hpushes := pushes_le op
      refine hrests i (by omega) fun htouched => ?_
      rcases touched?_cases htouched with ⟨f, hf, hle⟩ | hover | hslot | hslot
      · have hbase := hhead f hf
        omega
      · exact hfree hover
      · have hbase := hcallee i hslot
        omega
      · have htop := hreplaced i hslot
        omega
    | writes _ _ _ _ _ _ _ hstack => rw [hstack]
    | makes _ _ _ _ _ _ _ hstack =>
      rw [hstack] at htall ⊢
      rw [Array.size_push] at htall
      rw [Array.getElem?_push, if_neg (by omega)]
    | closes _ _ _ _ hstack =>
      rw [hstack] at htall ⊢
      have hrests : Rests 0 none m.stack m.stack.pop := .pop m.stack
      exact hrests i (by omega) nofun
    | @calls op g outer m' _ _ _ _ hslot _ hroom _ hargs =>
      have hbase := hcallee g.base hslot
      exact hargs i (by omega) (by omega)
    | departs _ hrecedes hlands =>
      have hrests := ((rests_departing m).trans hrecedes.rests).trans hlands.rests
      exact hrests i (by omega) nofun
    | @leaves f rest v m' hframes _ _ hyields =>
      have hbase := hhead f (by rw [hframes]; rfl)
      have hrests := ((rests_departing m).trans (.shrink _ f.base)).push (f.result m.departing.stack v)
      rw [← hyields.stack] at hrests
      exact hrests i (by omega) nofun
  | thrown _ _ hrests hrecedes hlands =>
    have hthrough := (hrecedes.rests.trans hlands.rests)
    rw [stack_attachTrace] at hthrough
    refine (hrests.trans hthrough.touch) i (by omega) fun hslot => ?_
    have hbase := hcallee i hslot
    omega

/-! The beginning and the end of a call. -/

theorem frames_of_raises? (hdiscreet : host.Discreet) (hm : m.Coherent)
    (hraises : m.raises? host = some q) : q.frames.length = m.frames.length := by
  obtain ⟨f, hf, hraises⟩ := Option.bind_eq_some_iff.1 hraises
  obtain ⟨op, hop, hraises⟩ := Option.bind_eq_some_iff.1 hraises
  obtain ⟨rest, hframes⟩ := List.head?_eq_some_iff.1 hf
  have hends : Ends host m f (execute host f.ip op (m.atOffset (f.ip + 1))) :=
    ends_execute hframes hop hm.nested
  split at hraises
  · rename_i e q' hres
    obtain rfl := Option.some.inj hraises
    rw [hres] at hends
    obtain ⟨ip, hquiet⟩ := hends
    rw [(hquiet.undisturbed_atOffset hdiscreet hframes).frames, length_frames_atOffset]
  · cases hraises

/-- An instruction that pushes a frame puts its base at the callee and leaves the slots below. -/
theorem Handled.pushed (hdiscreet : host.Discreet) (hm : m.Coherent) (hhandled : Handled host m m')
    (hlonger : m.frames.length < m'.frames.length) :
    ∃ g outer, m'.frames = g :: outer ∧ m.callee? = some g.base ∧
      ∀ i < g.base, m'.stack[i]? = m.stack[i]? := by
  cases hhandled with
  | carried hcalm hfootprint =>
    cases hfootprint with
    | works _ _ hlength => omega
    | writes _ hlength => omega
    | makes _ _ hlength => omega
    | closes _ hlength => omega
    | calls _ _ hframes _ hcallee _ hroom _ hargs =>
      exact ⟨_, _, hframes, hcallee, fun i hi => hargs i (by omega) (by omega)⟩
    | departs _ hrecedes hlands =>
      have hle := hrecedes.length_le
      rw [frames_departing] at hle
      have hlength := hlands.length
      omega
    | leaves hframes _ hrest =>
      rw [hframes, hrest, List.length_cons] at hlonger
      omega
  | thrown hraises _ _ hrecedes hlands =>
    have hle := hrecedes.length_le
    rw [frames_attachTrace, frames_of_raises? hdiscreet hm hraises] at hle
    have hlength := hlands.length
    omega

theorem returning_of_frames {cs : List Pending} (hreturning : m.Returning f v cs)
    (hop : q.opcode? = m.opcode?) (hstack : q.stack = m.stack)
    (hcompletions : q.completions = m.completions) (hframes : q.frames = m.frames) :
    q.Returning f v cs := by
  cases hreturning with
  | ret hret hv =>
    rw [← hcompletions]
    exact .ret (hop.trans hret) (hstack ▸ hv)
  | atEnd hend =>
    rw [← hcompletions]
    exact .atEnd hend
  | resumed hend hpending hdepth hp =>
    exact .resumed (hop.trans hend) (hcompletions.trans hpending) (hframes ▸ hdepth) hp

/-- Where nothing is raised, nothing is thrown. -/
theorem throwing_ok {x : Exec (Option Ending)} {p : Machine} (houtcome : Outcome host m f (x p))
    (h : throwing none x p = .ok none m') : x p = .ok none m' := by
  unfold throwing at h
  cases hres : x p with
  | ok b q =>
    rw [hres] at h
    exact h
  | error s q =>
    rw [hres] at h houtcome
    cases s with
    | raised e =>
      cases houtcome with
      | failed _ _ _ hfinal => cases hfinal
    | _ => cases h

theorem finishReturn_of_maybeReturn (h : maybeReturn (finishReturn v) m = .ok none m') :
    finishReturn v m = .ok none m' := by
  unfold maybeReturn at h
  cases hres : finishReturn v m with
  | ok w q =>
    rw [bind_of_ok hres] at h
    cases w with
    | none =>
      obtain ⟨-, rfl⟩ := EStateM.Result.ok.inj h
      rfl
    | some w =>
      obtain ⟨hnone, -⟩ := EStateM.Result.ok.inj h
      cases hnone
  | error s q =>
    rw [bind_of_error hres] at h
    cases h

/-- A return comes down to one action on the machine without its operand. -/
theorem finishReturn_of_returning {cs : List Pending} (hm : m.Coherent)
    (hframes : m.frames = f :: rest) (hreturning : m.Returning f v cs)
    (hstep : instruction host m = .ok none m') :
    ∃ ip, finishReturn v (m.departing.steer (m.atOffset ip).frames m.regions cs) = .ok none m' := by
  cases hreturning with
  | ret hop hv =>
    rw [instruction_eq hframes hop] at hstep
    have hok := throwing_ok (ends_ret hframes hop) hstep
    refine ⟨f.ip + 1, finishReturn_of_maybeReturn ?_⟩
    let behind := m.atOffset (f.ip + 1)
    change maybeReturn (pop >>= finishReturn) behind = _ at hok
    rcases maybeReturn_pop_cases behind with ⟨w, hw, hpop⟩ | hpop
    · obtain rfl := Option.some.inj (hv.symm.trans hw)
      rw [departing_of_ret hop]
      exact hpop.symm.trans hok
    · rw [hpop] at hok
      cases hok
  | atEnd hend =>
    rw [instruction_eq_return hframes hend] at hstep
    refine ⟨f.ip, finishReturn_of_maybeReturn ?_⟩
    have hdeparting : m.departing = m := departing_eq (by rw [opcode?_eq_none hframes hend]; nofun)
    rw [hdeparting, atOffset_self hframes]
    exact hstep
  | @resumed v p cs hop hcompletions hdepth hp =>
    rw [instruction_eq hframes hop] at hstep
    have hok := throwing_ok (ends_endFinally hframes hop hm.nested) hstep
    refine ⟨f.ip + 1, finishReturn_of_maybeReturn ?_⟩
    have hdeparting : m.departing = m := departing_eq (by rw [hop]; nofun)
    change maybeReturn endFinally (m.atOffset (f.ip + 1)) = _ at hok
    rw [maybeReturn_endFinally hcompletions hdepth, hp] at hok
    rw [hdeparting]
    exact hok

/-- A return leaves regions of the innermost call only. -/
theorem Returns.left_regions {result : EStateM.Result Signal Machine (Option Value)}
    (h : Returns m v result) (hresult : result = .ok none m') :
    ∃ gone, m.regions = gone ++ m'.regions ∧ ∀ r ∈ gone, r.frameDepth = m.frames.length := by
  cases h with
  | @held gone older region block q hregions hgone hdepth =>
    obtain ⟨-, rfl⟩ := EStateM.Result.ok.inj hresult
    refine ⟨gone ++ [region], by rw [hregions, List.append_assoc]; rfl, fun r hr => ?_⟩
    rcases List.mem_append.1 hr with hmem | hmem
    · exact (hgone r hmem).1
    · rw [List.mem_singleton.1 hmem]
      exact hdepth
  | @left gone older f outer q hregions hgone =>
    obtain ⟨-, rfl⟩ := EStateM.Result.ok.inj hresult
    exact ⟨gone, hregions, fun r hr => (hgone r hr).1⟩
  | last => cases hresult

/-! Activations. -/

/-- Step `s` begins a call with frame `g`, and the call returns `v` in step `n`. -/
structure Activation (ms : Nat → Machine) (s n : Nat) (g : Frame) (v : Value) : Prop where
  later : s < n
  head : (ms (s + 1)).frames.head? = some g
  deeper : (ms (s + 1)).frames.length = (ms s).frames.length + 1
  underWay : ∀ t, s < t → t ≤ n → (ms s).frames.length < (ms t).frames.length
  returning : ∃ f cs, (ms n).frames.head? = some f ∧ (ms n).Returning f v cs
  back : (ms (n + 1)).frames.length = (ms s).frames.length

/-- While a call is under way, the stack does not shrink to its callee, newer calls have their
callees no deeper, and the end of a try region leaves a region of the innermost call. -/
structure Contained (ms : Nat → Machine) (s n base : Nat) : Prop where
  tall : ∀ t, s < t → t ≤ n → base + 1 ≤ (ms t).stack.size
  reach : ∀ t, s < t → t ≤ n → ∀ k ∈ (ms t).reach?, base + k ≤ (ms t).stack.size
  owns : ∀ t, s < t → t ≤ n → (ms t).PopsOwn

/-- The caller as it was, but for the value of a call in place of callee and arguments. -/
structure GoesOn (ms : Nat → Machine) (s n : Nat) (g : Frame) (v : Value) : Prop where
  size : (ms (n + 1)).stack.size = g.base + 1
  result : (ms (n + 1)).stack[g.base]? = some (g.result (ms n).departing.stack v)
  below : ∀ i < g.base, (∀ t, s < t → t ≤ n → ¬ (ms t).collectIfDue.Overwrites i) →
    (ms (n + 1)).stack[i]? = (ms s).stack[i]?
  frames : ∃ f outer op, (ms s).frames = f :: outer ∧ (ms s).opcode? = some op ∧
    (ms (n + 1)).frames = { f with ip := f.ip + op.layout.width 0 } :: outer
  regions : (ms (n + 1)).regions = (ms s).regions

/-- What holds of a machine while a call is under way. -/
structure Ongoing (ms : Nat → Machine) (s t : Nat) (g : Frame) (callers : List Frame) : Prop where
  above : Above g callers (ms t).frames
  regions : outerRegions callers.length (ms t).regions = (ms s).regions
  below : ∀ i < g.base, (∀ u, s < u → u < t → ¬ (ms u).collectIfDue.Overwrites i) →
    (ms t).stack[i]? = (ms s).stack[i]?

@[simp] theorem stack_collectIfDue (m : Machine) : m.collectIfDue.stack = m.stack := by
  rw [collectIfDue_eq]

theorem reach?_collectIfDue (m : Machine) : m.collectIfDue.reach? = m.reach? := by
  unfold reach?
  rw [frames_collectIfDue, opcode?_collectIfDue]

theorem stack_departing_collectIfDue (m : Machine) :
    m.collectIfDue.departing.stack = m.departing.stack := by
  by_cases hop : m.opcode? = some .ret
  · rw [departing_of_ret ((opcode?_collectIfDue m).trans hop), departing_of_ret hop]
    exact congrArg Array.pop (stack_collectIfDue m)
  · rw [departing_eq (by rwa [opcode?_collectIfDue]), departing_eq hop, stack_collectIfDue]

theorem PopsOwn.collectIfDue (h : m.PopsOwn) : m.collectIfDue.PopsOwn := by
  unfold PopsOwn
  rw [opcode?_collectIfDue, regions_collectIfDue, frames_collectIfDue]
  exact h

theorem Follows.handled (hsparing : host.Sparing) (hfollows : Follows host ms n) (ht : t < n) :
    Handled host (ms t).collectIfDue (ms (t + 1)) := by
  have hstep := hfollows t ht
  obtain ⟨f, rest, hframes⟩ := exists_frame_of_step hstep
  unfold step at hstep
  rw [modify_bind] at hstep
  exact handled_instruction hsparing ((frames_collectIfDue _).trans hframes) hstep

namespace Ongoing

/-- A call begins. -/
theorem start (hdiscreet : host.Discreet) (hm : (ms s).Coherent)
    (hturn : Turn host (ms s).collectIfDue (ms (s + 1)))
    (hhandled : Handled host (ms s).collectIfDue (ms (s + 1)))
    (hhead : (ms (s + 1)).frames.head? = some g)
    (hdeeper : (ms (s + 1)).frames.length = (ms s).frames.length + 1) :
    ∃ f outer op, (ms s).frames = f :: outer ∧ (ms s).opcode? = some op ∧
      Ongoing ms s (s + 1) g ({ f with ip := f.ip + op.layout.width 0 } :: outer) := by
  have hdue := (undisturbed_collectIfDue _).coherent hm
  have hlonger : (ms s).collectIfDue.frames.length < (ms (s + 1)).frames.length := by
    rw [frames_collectIfDue]
    omega
  rcases hturn.frames_cases hdiscreet with ⟨k, ip, -, hframes⟩ | ⟨f, outer, op, h, hframes, hop, hnext⟩
  · rw [hframes, List.length_modifyHead, List.length_drop] at hlonger
    omega
  · rw [frames_collectIfDue] at hframes
    rw [opcode?_collectIfDue] at hop
    refine ⟨f, outer, op, hframes, hop, ?_, ?_, ?_⟩
    · rw [hnext] at hhead
      obtain rfl := Option.some.inj hhead
      exact ⟨[], h.ip, hnext, nofun⟩
    · rw [hturn.regions_of_longer hdiscreet hdue hlonger, regions_collectIfDue]
      refine outerRegions_eq_self fun r hr => ?_
      have hdepth := (hm.regionDepth r hr).2
      rwa [hframes] at hdepth
    · intro i hi _
      obtain ⟨h', outer', hnext', -, hbelow⟩ := hhandled.pushed hdiscreet hdue hlonger
      rw [hnext'] at hhead
      obtain rfl := Option.some.inj hhead
      rw [hbelow i hi, stack_collectIfDue]

/-- Another step is made while the call is under way. -/
theorem next (hdiscreet : host.Discreet) (hm : (ms t).Coherent)
    (hturn : Turn host (ms t).collectIfDue (ms (t + 1)))
    (hhandled : Handled host (ms t).collectIfDue (ms (t + 1))) (hst : s < t)
    (h : Ongoing ms s t g callers) (hreach : ∀ k ∈ (ms t).reach?, g.base + k ≤ (ms t).stack.size)
    (howns : (ms t).PopsOwn) (htall : g.base + 1 ≤ (ms (t + 1)).stack.size)
    (hdepth : callers.length < (ms (t + 1)).frames.length) :
    Ongoing ms s (t + 1) g callers := by
  have hdue := (undisturbed_collectIfDue _).coherent hm
  have hreach' : ∀ k ∈ (ms t).collectIfDue.reach?,
      g.base + k ≤ (ms t).collectIfDue.stack.size := by
    rw [stack_collectIfDue, reach?_collectIfDue]
    exact hreach
  have habove : Above g callers (ms t).collectIfDue.frames := by
    rw [frames_collectIfDue]
    exact h.above
  have hunder : callers.length < (ms t).collectIfDue.frames.length := by
    obtain ⟨newer, ip, hframes, -⟩ := habove
    rw [hframes, List.length_append, List.length_cons]
    omega
  refine ⟨?_, ?_, ?_⟩
  · rcases hturn.frames_cases hdiscreet with ⟨k, ip, hk, hframes⟩ | ⟨f, outer, op, h', hframes, -, hnext⟩
    · rw [hframes]
      rw [hframes, List.length_modifyHead, List.length_drop] at hdepth
      exact habove.drop (by omega)
    · have hlonger : (ms t).collectIfDue.frames.length < (ms (t + 1)).frames.length := by
        rw [hframes, hnext, List.length_cons, List.length_cons, List.length_cons]
        omega
      obtain ⟨h'', outer', hnext', hcallee, -⟩ := hhandled.pushed hdiscreet hdue hlonger
      obtain ⟨rfl, -⟩ := List.cons.inj (hnext.symm.trans hnext')
      have hbase : g.base ≤ h'.base := by
        obtain ⟨k, hk, hslot⟩ := Option.map_eq_some_iff.1 hcallee
        have hbound := hreach' k hk
        omega
      have hcalls := habove.calls hbase (f.ip + op.layout.width 0)
      rw [hframes] at hcalls
      rw [hnext]
      exact hcalls
  · rw [hturn.outerRegions_eq hdiscreet hdue hunder hdepth howns.collectIfDue, regions_collectIfDue]
    exact h.regions
  · intro i hi hfree
    have hbelow := hhandled.below (fun f hf => habove.base_le_head hf) hreach' htall hi
      (hfree t hst (Nat.lt_succ_self t))
    rw [hbelow, stack_collectIfDue]
    exact h.below i hi fun u hsu hut => hfree u hsu (Nat.lt_succ_of_lt hut)

/-- The call returns. -/
theorem finish (hm : (ms t).Coherent) (h : Ongoing ms s t g callers)
    (hstep : instruction host (ms t).collectIfDue = .ok none (ms (t + 1)))
    {cs : List Pending} (hhead : (ms t).frames.head? = some f) (hreturning : (ms t).Returning f v cs)
    (htall : g.base + 1 ≤ (ms t).stack.size)
    (hover : (ms (t + 1)).frames.length = callers.length) :
    (ms (t + 1)).frames = callers ∧ (ms (t + 1)).stack.size = g.base + 1 ∧
      (ms (t + 1)).stack[g.base]? = some (g.result (ms t).departing.stack v) ∧
      (∀ i < g.base, (ms (t + 1)).stack[i]? = (ms t).stack[i]?) ∧
      outerRegions callers.length (ms (t + 1)).regions = (ms s).regions := by
  have hdue := (undisturbed_collectIfDue _).coherent hm
  obtain ⟨newer, ip, habove, -⟩ := h.above
  obtain ⟨rest, hframes⟩ := List.head?_eq_some_iff.1 hhead
  have hframes' : (ms t).collectIfDue.frames = f :: rest := (frames_collectIfDue _).trans hframes
  have hreturning' : (ms t).collectIfDue.Returning f v cs :=
    returning_of_frames hreturning (opcode?_collectIfDue _) (stack_collectIfDue _)
      (completions_collectIfDue _) (frames_collectIfDue _)
  obtain ⟨at', hfinish⟩ := finishReturn_of_returning hdue hframes' hreturning' hstep
  let p := (ms t).collectIfDue.departing.steer ((ms t).collectIfDue.atOffset at').frames
    (ms t).collectIfDue.regions cs
  have hmoved : p.frames = { f with ip := at' } :: rest := frames_atOffset hframes' at'
  have hretires : Retires { f with ip := at' } rest v p (finishReturn v p) :=
    retires_returnThrough hmoved v p.frames.length p.regions
  have hreturns : Returns p v (finishReturn v p) := returns_finishReturn hmoved v
  have hlength : p.frames.length = newer.length + callers.length + 1 := by
    rw [hmoved, List.length_cons, ← List.length_cons (a := f), ← hframes, habove,
      List.length_append, List.length_cons, Nat.add_assoc]
  rw [hfinish] at hretires hreturns
  rcases hretires with ⟨-, -, -, hsame⟩ | ⟨hyields, hrest⟩
  · omega
  · have hnone : newer = [] := by
      rw [hrest] at hover
      rw [hmoved, List.length_cons] at hlength
      exact List.eq_nil_of_length_eq_zero (by omega)
    rw [hnone, List.nil_append, hframes] at habove
    obtain ⟨rfl, rfl⟩ := List.cons.inj habove
    have hstack : p.stack = (ms t).departing.stack := stack_departing_collectIfDue (ms t)
    have hshort := pred_size_le_departing (ms t)
    have hafter := hyields.stack
    rw [hstack] at hafter
    have hsize : ((ms t).departing.stack.shrink g.base).size = g.base := by
      rw [Array.size_shrink]
      omega
    refine ⟨hrest, ?_, ?_, ?_, ?_⟩
    · rw [hafter, Array.size_push, hsize]
    · rw [hafter, Array.getElem?_push, if_pos hsize.symm]
      rfl
    · intro i hi
      have hrests := ((rests_departing (ms t)).trans (.shrink _ g.base)).push
        (Frame.result { g with ip := at' } (ms t).departing.stack v)
      rw [← hafter] at hrests
      refine hrests i ?_ nofun
      rw [hafter, Array.size_push, hsize]
      omega
    · obtain ⟨gone, hgone, hdepths⟩ := hreturns.left_regions rfl
      have hthrough : (ms t).regions = gone ++ (ms (t + 1)).regions :=
        (regions_collectIfDue _).symm.trans hgone
      rw [← h.regions, hthrough]
      refine (outerRegions_append fun r hr => ?_).symm
      rw [hdepths r hr]
      omega

end Ongoing

/-- A call that returns leaves its caller as it was, with the value of the call in place of callee
and arguments and the stack as long as that; only slots written through open cells may differ. -/
theorem activation_preserves_caller (hdiscreet : host.Discreet) (hsparing : host.Sparing)
    (hlaunched : Launched host (ms 0)) (hfollows : Follows host ms (n + 1))
    (hactivation : Activation ms s n g v) (hcontained : Contained ms s n g.base) :
    GoesOn ms s n g v := by
  have hcoherent {t : Nat} (ht : t ≤ n) : (ms t).Coherent :=
    hfollows.coherent hdiscreet hlaunched (by omega)
  have hturn {t : Nat} (ht : t ≤ n) : Turn host (ms t).collectIfDue (ms (t + 1)) :=
    hfollows.turn hdiscreet hlaunched (by omega)
  have hhandled {t : Nat} (ht : t ≤ n) : Handled host (ms t).collectIfDue (ms (t + 1)) :=
    hfollows.handled hsparing (by omega)
  have hlater := hactivation.later
  obtain ⟨f, outer, op, hframes, hop, hstart⟩ := Ongoing.start hdiscreet
    (hcoherent (show s ≤ n by omega)) (hturn (by omega)) (hhandled (by omega))
    hactivation.head hactivation.deeper
  let callers := { f with ip := f.ip + op.layout.width 0 } :: outer
  have hdepth : (ms s).frames.length = callers.length := by rw [hframes]; rfl
  have hunder : ∀ t, s < t → t ≤ n → Ongoing ms s t g callers := by
    intro t hst
    induction t, hst using Nat.le_induction with
    | base => exact fun _ => hstart
    | succ t hst ih =>
      intro ht
      have hdeep := hactivation.underWay (t + 1) (by omega) ht
      rw [hdepth] at hdeep
      exact (ih (by omega)).next hdiscreet (hcoherent (by omega)) (hturn (by omega))
        (hhandled (by omega)) (by omega) (hcontained.reach t hst (by omega))
        (hcontained.owns t hst (by omega)) (hcontained.tall (t + 1) (by omega) ht) hdeep
  have hn := hunder n hlater (le_refl n)
  obtain ⟨f', cs, hhead, hreturning⟩ := hactivation.returning
  have hstep : instruction host (ms n).collectIfDue = .ok none (ms (n + 1)) := by
    have hstep := hfollows n (Nat.lt_succ_self n)
    unfold step at hstep
    rwa [modify_bind] at hstep
  obtain ⟨hback, hsize, hresult, hbelow, hregions⟩ := hn.finish (hcoherent (le_refl n)) hstep
    hhead hreturning (hcontained.tall n hlater (le_refl n)) (hactivation.back.trans hdepth)
  refine ⟨hsize, hresult, ?_, ⟨f, outer, op, hframes, hop, hback⟩, ?_⟩
  · intro i hi hfree
    rw [hbelow i hi]
    exact hn.below i hi fun t hst htn => hfree t hst (Nat.le_of_lt htn)
  · have hlast := hfollows.coherent hdiscreet hlaunched (le_refl (n + 1))
    rw [outerRegions_eq_self] at hregions
    · exact hregions
    · intro r hr
      rw [← hdepth, ← hactivation.back]
      exact (hlast.regionDepth r hr).2

/-- A function that sets the variable it captures to one. -/
def setter : Prototype :=
  let body := ((({} : Blob).pushOp .pushOne 1).pushOp .upvalueSet 1).pushShort 0 1
  { name := "setter", captured := 1, blob := body.pushOp .ret 1 }

/-- A script with a variable that the setter captures, and a call of it. -/
def setterScript : Blob :=
  let made := ((({ constants := #[.ref (.object 0)] } : Blob).pushOp .pushNil 1).pushOp
    .makeClosure 2).pushShort 0 2
  let captured := (made.pushByte 1 2).pushShort 1 2
  ((captured.pushOp .call 3).pushByte 0 3).pushOp .ret 3

/-- A machine with the setter. -/
def withSetter : Machine := { bare with heap := (bare.heap.alloc (.function setter)).2 }

theorem Host.sparing_idle : Host.idle.Sparing := fun _ _ _ m _ => ⟨.refl m, rfl, rfl⟩

/-- The states of a machine that runs the script. -/
def setterStates : Nat → Machine := states .idle (withSetter.entered (.script setterScript))

/-- The call of the setter leaves its value on top of the variable, which is one then. -/
theorem activation_preserves_caller_setterScript :
    GoesOn setterStates 2 5 { closure := .object 4, proto := setter, base := 2 } (.number 1) := by
  have hfollows : Follows .idle setterStates 6 :=
    follows_states (show ∀ t < 6, _ by decide +kernel)
  have hlaunched : Launched .idle (setterStates 0) := .script rfl (fun _ => ⟨rfl, rfl, rfl⟩) _
  have hcalled : (setterStates 3).frames.head? =
      some { closure := .object 4, proto := setter, base := 2 } := by cbv
  have hlast : (setterStates 5).frames.head? =
      some { closure := .object 4, proto := setter, ip := 4, base := 2 } := by cbv
  have htop : (setterStates 5).stack.back? = some (.number 1) := by cbv
  have hunder : ∀ t ≤ 5, 2 < t → (setterStates 2).frames.length < (setterStates t).frames.length :=
    by decide +kernel
  have htall : ∀ t ≤ 5, 2 < t → 2 + 1 ≤ (setterStates t).stack.size := by decide +kernel
  have hreach : ∀ t ≤ 5, 2 < t → (setterStates t).reach? = none := by decide +kernel
  have hother : ∀ t ≤ 5, 2 < t → (setterStates t).opcode? ≠ some .popTry := by decide +kernel
  refine activation_preserves_caller Host.discreet_idle Host.sparing_idle hlaunched hfollows
    { later := by decide, head := hcalled, deeper := by decide +kernel, back := by decide +kernel,
      underWay := fun t hlater ht => hunder t ht hlater
      returning := ⟨_, _, hlast, .ret (by decide +kernel) htop⟩ }
    { tall := fun t hlater ht => htall t ht hlater, reach := ?_, owns := ?_ }
  · intro t hlater ht k hk
    rw [hreach t ht hlater] at hk
    cases hk
  · intro t hlater ht hop
    exact absurd hop (hother t ht hlater)

end ScriptMachine.Machine
