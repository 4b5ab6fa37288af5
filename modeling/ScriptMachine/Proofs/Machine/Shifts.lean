import ScriptMachine.Proofs.Machine.Ledger
import ScriptMachine.Proofs.Machine.Runs

/-!
What a turn makes of the calls, the regions and the completions, whatever else it does. Either a
region is entered, or regions are left, the innermost first. If one of those has a finally block,
it is the last of them, and exactly then a completion is pushed.
-/

namespace ScriptMachine.Machine

variable {host : Host} {m m' : Machine} {f : Frame} {rest : List Frame} {v e : Value}
  {cs : List Pending}

/-- The calls under way, wherever they have got to. -/
def calls (m : Machine) : List Frame := m.frames.map fun f => { f with ip := 0 }

/-- How a region with a finally block was left: the completion of the block. -/
inductive ExitPath (host : Host) (m m' : Machine) (region : Region) : Completion → Prop where
  /-- By the end of the region. -/
  | popped {f : Frame} {rest : List Frame} (hframes : m.frames = f :: rest)
      (hop : m.opcode? = some .popTry) : ExitPath host m m' region (.resume (f.ip + 1))
  /-- By the return of its call. -/
  | returned {f : Frame} {rest : List Frame} {v : Value} {cs : List Pending}
      (hframes : m.frames = f :: rest) (hreturning : m.Returning f v cs) :
      ExitPath host m m' region (.giveBack v)
  /-- By an exception that the handler takes. -/
  | caught {f : Frame} {rest : List Frame} {e : Value} {cs : List Pending} {handler : Nat}
      (hframes : m.frames = f :: rest) (hthrowing : Throwing host m f e cs)
      (htakes : region.Takes m'.heap e) (hhandler : region.handler? = some handler) :
      ExitPath host m m' region (.handle handler e)
  /-- By another exception. -/
  | passed {f : Frame} {rest : List Frame} {e : Value} {cs : List Pending}
      (hframes : m.frames = f :: rest) (hthrowing : Throwing host m f e cs)
      (hpasses : ¬ (region.Takes m'.heap e ∧ region.handler? ≠ none)) :
      ExitPath host m m' region (.rethrow e)

/-- The completions that are kept, without the one that the end of a finally block takes. -/
structure Keeps (m : Machine) (kept : List Pending) : Prop where
  suffix : kept <:+ m.completions
  ended : m.opcode? = some .endFinally →
    ∃ p cs, m.completions = p :: cs ∧ p.frameDepth = m.frames.length ∧ kept <:+ cs

/-- What a turn makes of the calls, the regions and the completions. A region with a finally block
is left by one of some paths. -/
inductive Shift (path : Region → Completion → Prop) (m m' : Machine) : Prop where
  | goes (hcalls : m'.calls = m.calls ∨ ∃ f, m'.calls = f :: m.calls)
      (hregions : m'.regions = m.regions) (hcompletions : m'.completions = m.completions)
      (hop : m.opcode? ≠ some .endFinally)
  | enters {f : Frame} {rest : List Frame} {block : UInt16} {region : Region}
      (hframes : m.frames = f :: rest) (hop : m.opcode? = some .enterTry)
      (hblock : f.proto.blob.shortAt? (f.ip + 5) = some block)
      (hfinally : region.finally? = address? block)
      (hdepth : region.frameDepth = m.frames.length) (hcalls : m'.calls = m.calls)
      (hregions : m'.regions = region :: m.regions) (hcompletions : m'.completions = m.completions)
  | begins {gone : List Region} {region : Region} {block k : Nat} {c : Completion}
      {kept : List Pending} (hcalls : m'.calls = m.calls.drop k)
      (hregions : m.regions = gone ++ region :: m'.regions) (hgone : ∀ r ∈ gone, r.finally? = none)
      (hfinally : region.finally? = some block) (hip : m'.frames.head?.map Frame.ip = some block)
      (hcompletions : m'.completions =
        { tryDepth := m'.regions.length, frameDepth := m'.frames.length, completion := c } :: kept)
      (hkeeps : m.Keeps kept) (hexit : path region c)
  | drops {gone : List Region} {k : Nat} (hcalls : m'.calls = m.calls.drop k)
      (hregions : m.regions = gone ++ m'.regions) (hgone : ∀ r ∈ gone, r.finally? = none)
      (hkeeps : m.Keeps m'.completions)

theorem calls_atOffset (m : Machine) (ip : Nat) : (m.atOffset ip).calls = m.calls := by
  unfold calls atOffset
  cases m.frames <;> rfl

theorem calls_resumeAt (frames : List Frame) (depth ip : Nat) :
    (resumeAt frames depth ip).map (fun f => { f with ip := 0 }) =
      (frames.map fun f => { f with ip := 0 }).drop (frames.length - depth) := by
  unfold resumeAt
  rw [← List.map_drop]
  cases frames.drop (frames.length - depth) <;> rfl

theorem Undisturbed.calls_eq (h : m.Undisturbed m') : m'.calls = m.calls := by
  unfold calls
  rw [h.frames]

theorem Passes.opcode?_ne {ip : Nat} (h : m.Passes f ip) : m.opcode? ≠ some .endFinally := by
  intro hend
  cases h with
  | falls hop hfalls =>
    obtain rfl := Option.some.inj (hop.symm.trans hend)
    rcases hfalls with hplain | hjump
    · cases hplain
    · cases hjump
  | jumps hop hlayout _ =>
    obtain rfl := Option.some.inj (hop.symm.trans hend)
    cases hlayout
  | loops hop hlayout _ _ =>
    obtain rfl := Option.some.inj (hop.symm.trans hend)
    cases hlayout
  | switches hop _ _ _ => exact absurd (hop.symm.trans hend) nofun

theorem Keeps.refl (hop : m.opcode? ≠ some .endFinally) : m.Keeps m.completions :=
  ⟨List.suffix_refl _, fun hend => absurd hend hop⟩

theorem Keeps.suffix_of {kept : List Pending} (h : m.Keeps cs) (hkept : kept <:+ cs) :
    m.Keeps kept := by
  refine ⟨hkept.trans h.suffix, fun hend => ?_⟩
  obtain ⟨p, older, hcompletions, hdepth, hcs⟩ := h.ended hend
  exact ⟨p, older, hcompletions, hdepth, hkept.trans hcs⟩

theorem Returning.keeps (hframes : m.frames = f :: rest) (h : m.Returning f v cs) :
    m.Keeps cs := by
  cases h with
  | ret hop _ => exact .refl (by rw [hop]; nofun)
  | atEnd hend => exact .refl (by rw [opcode?_eq_none hframes hend]; nofun)
  | @resumed v p cs _ hcompletions hdepth _ =>
    exact ⟨hcompletions ▸ List.suffix_cons p cs, fun _ =>
      ⟨p, cs, hcompletions, hdepth, List.suffix_refl cs⟩⟩

theorem Throwing.keeps (h : Throwing host m f e cs) : m.Keeps cs := by
  cases h with
  | raised hop hother _ =>
    exact .refl fun hend => hother (Option.some.inj (hop.symm.trans hend))
  | @rethrown e p cs _ hcompletions hdepth _ =>
    exact ⟨hcompletions ▸ List.suffix_cons p cs, fun _ =>
      ⟨p, cs, hcompletions, hdepth, List.suffix_refl cs⟩⟩

theorem ip_resumeAt {frames : List Frame} {depth : Nat} (hpos : 1 ≤ depth)
    (hle : depth ≤ frames.length) (ip : Nat) :
    (resumeAt frames depth ip).head?.map Frame.ip = some ip := by
  have hlength := length_resumeAt hle ip
  unfold resumeAt at hlength ⊢
  cases hdrop : frames.drop (frames.length - depth) with
  | nil =>
    rw [hdrop] at hlength
    simp at hlength
    omega
  | cons f rest => rfl

/-- A region with a finally block is left last, and the block begins. -/
theorem Shift.of_begins {path : Region → Completion → Prop} {gone older : List Region}
    {region : Region} {block depth : Nat} {c : Completion} {kept : List Pending} {q : Machine}
    (hregions : m.regions = gone ++ region :: older) (hgone : ∀ r ∈ gone, r.finally? = none)
    (hfinally : region.finally? = some block) (hpos : 1 ≤ depth) (hle : depth ≤ m.frames.length)
    (hkeeps : m.Keeps kept) (hexit : path region c) :
    Shift path m (q.steer (resumeAt m.frames depth block) older
      (pendings older depth (some c) ++ kept)) := by
  refine .begins (calls_resumeAt m.frames depth block) hregions hgone hfinally
    (ip_resumeAt hpos hle block) ?_ hkeeps hexit
  show pendings older depth (some c) ++ kept = _
  have hlength : (q.steer (resumeAt m.frames depth block) older
      (pendings older depth (some c) ++ kept)).frames.length = depth := length_resumeAt hle block
  rw [hlength]
  rfl

theorem Turn.shift (hdiscreet : host.Discreet) (hturn : Turn host m m') (hm : m.Coherent) :
    Shift (ExitPath host m m') m m' := by
  cases hturn with
  | goes hframes hpasses hquiet =>
    have hleft := hquiet.undisturbed_atOffset hdiscreet hframes
    exact .goes (Or.inl (hleft.calls_eq.trans (calls_atOffset m _))) hleft.regions
      hleft.completions hpasses.opcode?_ne
  | makes hframes hop _ _ hquiet =>
    have hleft := hquiet.undisturbed_atOffset hdiscreet hframes
    exact .goes (Or.inl (hleft.calls_eq.trans (calls_atOffset m _))) hleft.regions
      hleft.completions (by rw [hop]; nofun)
  | @calls f rest op base _ hframes hop hplain hcalled =>
    obtain ⟨q, r, proto, hleft, rfl⟩ := hcalled.undisturbed_atOffset hdiscreet hframes
    have hcalls := congrArg (List.cons { closure := r, proto, base : Frame })
      (hleft.calls_eq.trans (calls_atOffset m _))
    refine .goes (Or.inr ⟨_, hcalls⟩) hleft.regions hleft.completions fun hend => ?_
    obtain rfl := Option.some.inj (hop.symm.trans hend)
    cases hplain
  | enters hframes hop _ hblock hregion _ =>
    exact .enters hframes hop hblock hregion.2.1 hregion.2.2 (calls_atOffset m _) rfl rfl
  | @pops f rest region older hframes hop hregions =>
    have hkeeps : m.Keeps m.completions := .refl (by rw [hop]; nofun)
    have hnone : m.regions = [] ++ region :: older := hregions
    cases hfinally : region.finally? with
    | none =>
      have hone : m.regions = [region] ++ older := hregions
      refine .drops (calls_resumeAt m.frames _ _) hone ?_ hkeeps
      intro r hr
      rw [List.mem_singleton.1 hr]
      exact hfinally
    | some block =>
      exact .of_begins hnone nofun hfinally (one_le_length hframes) (le_refl _) hkeeps
        (.popped hframes hop)
  | @resumes f rest p cs ip stack hframes hop hcompletions hdepth hp =>
    have hkeeps : m.Keeps cs := ⟨hcompletions ▸ List.suffix_cons p cs, fun _ =>
      ⟨p, cs, hcompletions, hdepth, List.suffix_refl cs⟩⟩
    have hcalls : (m.atOffset ip).calls = m.calls.drop 0 := calls_atOffset m ip
    have hnone : m.regions = [] ++ m.regions := rfl
    exact .drops hcalls hnone nofun hkeeps
  | returns hframes hreturning hregions hgone hdepth hfinally hquiet =>
    exact .of_begins hregions (fun r hr => (hgone r hr).2) hfinally (one_le_length hframes)
      (le_refl _) (hreturning.keeps hframes) (.returned hframes hreturning)
  | @leaves f rest v cs gone older ip q hframes hrest hreturning hregions hgone holder hquiet =>
    have hcalls : (rest.map fun f => { f with ip := 0 }) = m.calls.drop 1 := by
      unfold Machine.calls
      rw [hframes]
      rfl
    exact .drops hcalls hregions (fun r hr => (hgone r hr).2)
      ((hreturning.keeps hframes).suffix_of (List.dropWhile_suffix _))
  | @throws f rest e cs gone older region ip target c q hframes hthrowing hregions hgone hquiet
      hstops =>
    have hbounds := hm.regionDepth region (by simp [hregions])
    have hkeeps := hthrowing.keeps.suffix_of
      (List.dropWhile_suffix fun p => decide (older.length < p.tryDepth))
    cases hstops with
    | caught htakes hhandler hfinally =>
      have hthrough : m.regions = (gone ++ [region]) ++ older := by
        rw [hregions, List.append_assoc, List.singleton_append]
      refine .drops (calls_resumeAt m.frames _ _) hthrough ?_ hkeeps
      intro r hr
      rcases List.mem_append.1 hr with hmem | hmem
      · exact hgone r hmem
      · rw [List.mem_singleton.1 hmem]
        exact hfinally
    | held htakes hhandler hfinally =>
      exact .of_begins hregions hgone hfinally hbounds.1 hbounds.2 hkeeps
        (.caught hframes hthrowing htakes hhandler)
    | passing hpasses hfinally =>
      exact .of_begins hregions hgone hfinally hbounds.1 hbounds.2 hkeeps
        (.passed hframes hthrowing hpasses)

/-- The heap before the turn does not matter. -/
theorem Shift.of_heap {path : Region → Completion → Prop} {heap : Heap}
    (h : Shift path { m with heap } m') : Shift path m m' := by
  have hkeeps {kept : List Pending} (h : ({ m with heap } : Machine).Keeps kept) : m.Keeps kept :=
    ⟨h.suffix, h.ended⟩
  cases h with
  | goes hcalls hregions hcompletions hop => exact .goes hcalls hregions hcompletions hop
  | enters hframes hop hblock hfinally hdepth hcalls hregions hcompletions =>
    exact .enters hframes hop hblock hfinally hdepth hcalls hregions hcompletions
  | begins hcalls hregions hgone hfinally hip hcompletions h hexit =>
    exact .begins hcalls hregions hgone hfinally hip hcompletions (hkeeps h) hexit
  | drops hcalls hregions hgone h => exact .drops hcalls hregions hgone (hkeeps h)

/-- What a step of a run makes of the calls, the regions and the completions. -/
theorem Follows.shift {ms : Nat → Machine} {n t : Nat} (hdiscreet : host.Discreet)
    (hfollows : Follows host ms n) (hlaunched : Launched host (ms 0)) (ht : t < n) :
    Shift (ExitPath host (ms t).collectIfDue (ms (t + 1))) (ms t) (ms (t + 1)) := by
  have hm := hfollows.coherent hdiscreet hlaunched (show t ≤ n by omega)
  have hshift := (hfollows.turn hdiscreet hlaunched ht).shift hdiscreet
    ((undisturbed_collectIfDue _).coherent hm)
  generalize ExitPath host (ms t).collectIfDue (ms (t + 1)) = path at hshift ⊢
  rw [collectIfDue_eq] at hshift
  exact hshift.of_heap

end ScriptMachine.Machine
