import ScriptMachine.Proofs.Machine.Turn.Operations

/-!
Returns, throws and whole instructions. Where regions stand in the order of the calls that entered
them, every instruction ends as `Outcome` says.
-/

namespace ScriptMachine.Machine

variable {host : Host} {m m' : Machine} {f : Frame} {rest : List Frame}

/-! Returns and throws. -/

/-- A machine about to return or to throw, with the completions that are left. -/
structure Departs (host : Host) (m : Machine) (ip : Nat) (cs : List Pending) (r : Machine) :
    Prop where
  frames : r.frames = (m.atOffset ip).frames
  regions : r.regions = m.regions
  completions : r.completions = cs
  quiet : Quiet host (m.atOffset ip) (r.steer (m.atOffset ip).frames m.regions m.completions)

namespace Departs

variable {ip : Nat} {cs : List Pending} {r : Machine}

theorem length_frames (h : Departs host m ip cs r) : r.frames.length = m.frames.length := by
  rw [h.frames, length_frames_atOffset]

theorem shed {q : Machine} (h : Departs host m ip cs r) (hsheds : Sheds r q) :
    Quiet host (m.atOffset ip) (q.steer (m.atOffset ip).frames m.regions m.completions) :=
  h.quiet.trans (hsheds.steer _ _ _).quiet

theorem resumeAt_eq (h : Departs host m ip cs r) (depth target : Nat) :
    resumeAt r.frames depth target = resumeAt m.frames depth target := by
  unfold resumeAt
  rw [h.length_frames, h.frames]
  unfold atOffset
  cases hdrop : m.frames.length - depth with
  | zero => cases m.frames <;> rfl
  | succ k => cases m.frames <;> rfl

theorem ends_return {v : Value} (h : Departs host m ip cs r) (hframes : m.frames = f :: rest)
    (hreturning : m.Returning f v cs) :
    Outcome host m f (maybeReturn (finishReturn v) r) := by
  have hmoved : r.frames = { f with ip } :: rest := by rw [h.frames, frames_atOffset hframes]
  have hreturns := returns_finishReturn hmoved v
  have hlength := h.length_frames
  unfold maybeReturn
  revert hreturns
  generalize hresult : finishReturn v r = result
  intro hreturns
  cases hreturns with
  | held hregions hgone hdepth hfinally hsheds =>
    rw [bind_of_ok hresult]
    rw [h.regions] at hregions
    rw [hlength] at hgone hdepth
    have hturn : Turn host m _ :=
      .returns hframes hreturning hregions hgone hdepth hfinally (h.shed hsheds)
    refine .turned ?_
    rw [hlength, h.resumeAt_eq, h.completions]
    exact hturn
  | left hregions hgone holder hleft houter hsheds =>
    rw [bind_of_ok hresult]
    rw [hmoved] at hleft
    obtain ⟨-, rfl⟩ := List.cons.inj hleft
    rw [h.regions] at hregions
    rw [hlength] at hgone holder
    have hturn : Turn host m _ :=
      .leaves hframes houter hreturning hregions hgone holder (h.shed hsheds)
    refine .turned ?_
    rw [h.completions]
    exact hturn
  | last hregions hgone holder hlast =>
    rw [bind_of_ok hresult]
    rw [hmoved] at hlast
    obtain ⟨rfl, hrest⟩ := List.cons.inj hlast
    rw [h.regions] at hregions
    rw [hlength] at hgone holder
    rw [h.completions]
    have hlast : m.frames = [f] := by rw [hframes, hrest]
    have hreturned (w : Value) : Outcome host m f (.ok (some (.returned w)) _) :=
      .returned hlast hreturning hregions hgone holder h.quiet
    exact hreturned _

theorem ends_throw {e : Value} (h : Departs host m ip cs r)
    (hframes : m.frames = f :: rest) (hthrowing : Throwing host m f e cs)
    (hsorted : m.regions.Pairwise fun r s => s.frameDepth ≤ r.frameDepth)
    (hdepths : ∀ g ∈ m.regions, 1 ≤ g.frameDepth ∧ g.frameDepth ≤ m.frames.length) :
    Outcome host m f ((propagate e >>= fun _ => pure none : Exec (Option Ending)) r) := by
  have hthrown : Thrown host e m.regions r (propagate e r) := by
    unfold propagate
    rw [get_bind, h.regions]
    refine thrown_propagateThrough e hsorted ?_
    rw [h.length_frames]
    exact hdepths
  revert hthrown
  cases hresult : propagate e r with
  | ok a m' =>
    rintro ⟨gone, older, region, q, target, c, hregions, hgone, hsheds, hstops, rfl⟩
    rw [bind_of_ok hresult]
    have hturn : Turn host m _ :=
      .throws hframes hthrowing hregions hgone (h.shed hsheds) hstops
    refine .turned ?_
    rw [h.resumeAt_eq, h.completions]
    exact hturn
  | error s m' =>
    rintro ⟨hraised, hblame, hkept⟩
    rw [bind_of_error hresult]
    refine .failed h.quiet ⟨hkept.settings, hkept.builtins, hkept.pinned⟩ (fun h => ?_) hraised
    rw [hblame] at h
    cases h

end Departs

/-- A return takes its value off the stack first. -/
theorem maybeReturn_pop_cases (m : Machine) :
    (∃ v, m.stack.back? = some v ∧ maybeReturn (pop >>= finishReturn) m =
        maybeReturn (finishReturn v) { m with stack := m.stack.pop }) ∨
      maybeReturn (pop >>= finishReturn) m = .error (.fault (.internal .stackUnderflow)) m := by
  have hbind : maybeReturn (pop >>= finishReturn) =
      pop >>= fun v => maybeReturn (finishReturn v) := bind_assoc pop finishReturn _
  rw [hbind]
  rcases pop_cases m with ⟨v, hv, hok⟩ | herror
  · exact .inl ⟨v, hv, bind_of_ok hok _⟩
  · exact .inr (bind_of_error herror _)

theorem ends_ret (hframes : m.frames = f :: rest) (hop : m.opcode? = some .ret) :
    Outcome host m f (execute host f.ip .ret (m.atOffset (f.ip + 1))) := by
  let behind := m.atOffset (f.ip + 1)
  show Outcome host m f (maybeReturn (pop >>= finishReturn) behind)
  rcases maybeReturn_pop_cases behind with ⟨v, hv, hok⟩ | herror
  · rw [hok]
    have hdeparts : Departs host m (f.ip + 1) m.completions
        { behind with stack := behind.stack.pop } := ⟨rfl, rfl, rfl, .stack .refl _⟩
    exact hdeparts.ends_return hframes (.ret hop hv)
  · rw [herror]
    exact .failed .refl (.refl behind) nofun rfl

/-! The end of a finally block. -/

section EndFinally

variable {p : Pending} {cs : List Pending}

theorem maybeReturn_endFinally_of_nil (hcompletions : m.completions = []) (ip : Nat) :
    maybeReturn endFinally (m.atOffset ip) =
      .error (.fault (.internal .noCompletion)) (m.atOffset ip) := by
  have hnone : (m.atOffset ip).completions = [] := hcompletions
  unfold maybeReturn endFinally
  rw [bind_assoc, get_bind, hnone]
  rfl

theorem maybeReturn_endFinally_of_ne (hcompletions : m.completions = p :: cs)
    (hdepth : p.frameDepth ≠ m.frames.length) (ip : Nat) :
    maybeReturn endFinally (m.atOffset ip) = .error (.fault (.internal .completionFrame))
      (m.steer (m.atOffset ip).frames m.regions cs) := by
  have hsome : (m.atOffset ip).completions = p :: cs := hcompletions
  rw [← length_frames_atOffset m ip] at hdepth
  unfold maybeReturn endFinally
  rw [bind_assoc, get_bind, hsome]
  dsimp only
  rw [if_pos hdepth]
  rfl

/-- The completion on top is taken, and the call goes on as it says. -/
theorem maybeReturn_endFinally (hcompletions : m.completions = p :: cs)
    (hdepth : p.frameDepth = m.frames.length) (ip : Nat) :
    maybeReturn endFinally (m.atOffset ip) =
      maybeReturn (complete p.completion) (m.steer (m.atOffset ip).frames m.regions cs) := by
  have hsome : (m.atOffset ip).completions = p :: cs := hcompletions
  rw [← length_frames_atOffset m ip] at hdepth
  unfold maybeReturn endFinally
  rw [bind_assoc, get_bind, hsome]
  dsimp only
  rw [if_neg (not_not.2 hdepth)]
  rfl

theorem maybeReturn_resume (hframes : m.frames = f :: rest) (offset : Nat) :
    maybeReturn (complete (.resume offset)) m = .ok none (m.atOffset offset) := by
  unfold maybeReturn complete
  rw [bind_assoc, bind_of_ok (jumpTo_eq hframes offset)]
  rfl

theorem maybeReturn_handle (hframes : m.frames = f :: rest) (handler : Nat) (e : Value) :
    maybeReturn (complete (.handle handler e)) m =
      .ok none ({ m with stack := m.stack.push e }.atOffset handler) := by
  let pushed : Machine := { m with stack := m.stack.push e }
  have hpushed : pushed.frames = f :: rest := hframes
  have hpush : push e m = .ok () pushed := rfl
  unfold maybeReturn complete
  dsimp only
  rw [bind_assoc, bind_of_ok hpush, bind_assoc, bind_of_ok (jumpTo_eq hpushed handler)]
  rfl

theorem maybeReturn_rethrow (e : Value) :
    maybeReturn (complete (.rethrow e)) = (propagate e >>= fun _ => pure none) := by
  unfold maybeReturn complete
  rw [bind_assoc]
  rfl

end EndFinally

theorem ends_endFinally (hframes : m.frames = f :: rest) (hop : m.opcode? = some .endFinally)
    (hnested : m.Nested) :
    Outcome host m f (execute host f.ip .endFinally (m.atOffset (f.ip + 1))) := by
  let behind := m.atOffset (f.ip + 1)
  show Outcome host m f (maybeReturn endFinally behind)
  cases hcompletions : m.completions with
  | nil =>
    rw [maybeReturn_endFinally_of_nil hcompletions]
    exact .failed .refl (.refl behind) nofun rfl
  | cons p cs =>
    let taken := m.steer behind.frames m.regions cs
    by_cases hdepth : p.frameDepth = m.frames.length
    swap
    · have hkept : Kept host behind taken := ⟨rfl, rfl, fun _ => rfl⟩
      rw [maybeReturn_endFinally_of_ne hcompletions hdepth]
      exact .failed .refl hkept nofun rfl
    have htaken : taken.frames = { f with ip := f.ip + 1 } :: rest := frames_atOffset hframes _
    have hmoved (ip : Nat) : (taken.atOffset ip).frames = (m.atOffset ip).frames := by
      rw [frames_atOffset htaken, frames_atOffset hframes]
    have hdeparts : Departs host m (f.ip + 1) cs taken := ⟨rfl, rfl, rfl, .refl⟩
    rw [maybeReturn_endFinally hcompletions hdepth]
    cases hp : p.completion with
    | resume offset =>
      have hturn : Turn host m (({ m with stack := m.stack } : Machine).steer
          (m.atOffset offset).frames m.regions cs) :=
        .resumes hframes hop hcompletions hdepth (Or.inl hp)
      rw [← hmoved] at hturn
      rw [maybeReturn_resume htaken]
      exact .turned hturn
    | handle handler e =>
      have hturn : Turn host m (({ m with stack := m.stack.push e } : Machine).steer
          (m.atOffset handler).frames m.regions cs) :=
        .resumes hframes hop hcompletions hdepth (Or.inr ⟨e, hp⟩)
      rw [← hmoved] at hturn
      rw [maybeReturn_handle htaken]
      exact .turned hturn
    | rethrow e =>
      rw [maybeReturn_rethrow]
      exact hdeparts.ends_throw hframes (.rethrown hop hcompletions hdepth hp) hnested.sorted
        hnested.depths
    | giveBack v => exact hdeparts.ends_return hframes (.resumed hop hcompletions hdepth hp)

theorem ends_halt (hframes : m.frames = f :: rest) (hop : m.opcode? = some .halt) :
    Ends host m f (execute host f.ip .halt (m.atOffset (f.ip + 1))) := by
  refine ends_reads hframes hop reads_fetchByte rfl fun status _ => ?_
  exact Outcome.halted _ status

/-! Whole instructions. -/

theorem ends_execute {op : Opcode} (hframes : m.frames = f :: rest) (hop : m.opcode? = some op)
    (hnested : m.Nested) :
    Ends host m f (execute host f.ip op (m.atOffset (f.ip + 1))) := by
  by_cases hplain : op.isPlain = true
  · exact ends_plain hframes hop hplain
  · cases op with
    | jump => exact ends_jump hframes hop
    | jumpIfFalse => exact ends_jumpIfFalse hframes hop
    | loop => exact ends_loop hframes hop
    | switch => exact ends_switch hframes hop
    | makeClosure => exact ends_makeClosure hframes hop
    | ret => exact (ends_ret hframes hop).ends
    | enterTry => exact ends_enterTry hframes hop
    | popTry => exact ends_popTry hframes hop
    | endFinally => exact (ends_endFinally hframes hop hnested).ends
    | halt => exact ends_halt hframes hop
    | _ => exact absurd rfl hplain

/-- What an operation raises is thrown. -/
theorem throwing_outcome {op : Opcode} (hdiscreet : host.Discreet) (hframes : m.frames = f :: rest)
    (hop : m.opcode? = some op) (hnested : m.Nested) :
    Outcome host m f (throwing none (execute host f.ip op) (m.atOffset (f.ip + 1))) := by
  have hends : Ends host m f (execute host f.ip op (m.atOffset (f.ip + 1))) :=
    ends_execute hframes hop hnested
  unfold throwing
  split
  · rename_i e q hraised
    rw [hraised] at hends
    obtain ⟨ip, hquiet⟩ := hends
    have hother : op ≠ .endFinally := by
      rintro rfl
      have hends : Outcome host m f _ := ends_endFinally hframes hop hnested
      rw [hraised] at hends
      cases hends with
      | failed _ _ _ hfinal => cases hfinal
    have htraced : Quiet host (m.atOffset ip) (q.attachTrace e) :=
      hquiet.trans (quiet_attachTrace q e)
    have hleft := htraced.undisturbed hdiscreet (settled_of_frames (frames_atOffset hframes ip))
    have hdeparts : Departs host m ip m.completions (q.attachTrace e) := by
      refine ⟨hleft.frames, hleft.regions, hleft.completions, ?_⟩
      have hsame : (q.attachTrace e).steer (m.atOffset ip).frames m.regions m.completions =
          q.attachTrace e := by
        have hframes' : (m.atOffset ip).frames = (q.attachTrace e).frames := hleft.frames.symm
        have hregions : m.regions = (q.attachTrace e).regions := hleft.regions.symm
        have hcompletions : m.completions = (q.attachTrace e).completions :=
          hleft.completions.symm
        rw [hframes', hregions, hcompletions]
        rfl
      rw [hsame]
      exact htraced
    unfold throwValue
    rw [bind_assoc, modify_bind]
    exact hdeparts.ends_throw hframes (.raised hop hother hraised) hnested.sorted hnested.depths
  · rename_i hnot
    unfold Ends at hends
    split at hends
    · rename_i result e q hraised
      exact absurd hraised (hnot e q)
    · exact hends

theorem instruction_outcome (hdiscreet : host.Discreet) (hframes : m.frames = f :: rest)
    (hnested : m.Nested) : Outcome host m f (instruction host m) := by
  have hfetched := fetched_instruction host hframes
  generalize instruction host m = result at hfetched
  cases hfetched with
  | atEnd hend =>
    have hsame := atOffset_self hframes
    have hdeparts : Departs host m f.ip m.completions m :=
      ⟨by rw [hsame], rfl, rfl, by rw [hsame]; exact .refl⟩
    exact hdeparts.ends_return hframes (.atEnd hend)
  | unknown _ hnone =>
    refine .failed .refl (.refl _) (fun _ hrunnable => ?_) rfl
    obtain ⟨op, hop, -⟩ := hrunnable.reads
    rw [hnone] at hop
    cases hop
  | operation hop => exact throwing_outcome hdiscreet hframes hop hnested

end ScriptMachine.Machine
