import ScriptMachine.Proofs.Machine.Shifts

/-!
Regions and completions belong to a call that is under way. Each of them was pushed by a step of
the run, for the call that was then the innermost one, and it is gone before that call is over. No
step both ends a call and begins another, so a call is the same one for as long as there are as many
calls as its depth.
-/

namespace ScriptMachine.Machine

variable {host : Host} {m m' : Machine} {ms : Nat → Machine} {n s t : Nat}

/-- Whether a step enters a region. -/
def entersRegion (m m' : Machine) : Bool := decide (m.regions.length < m'.regions.length)

/-- The regions that a step has left, the innermost first. -/
def leftRegions (m m' : Machine) : List Region :=
  m.regions.take (m.regions.length - m'.regions.length)

/-- Whether a step begins a finally block: it leaves a region that has one. -/
def beginsBlock (m m' : Machine) : Bool := (leftRegions m m').any fun r => r.finally?.isSome

/-- The regions of a machine of a run, each with the step that entered it. -/
def regionLedger (ms : Nat → Machine) : Nat → List (Nat × Region) :=
  ledger (fun t => (ms t).regions) fun t => entersRegion (ms t) (ms (t + 1))

/-- The completions of a machine of a run, each with the step that began its finally block. -/
def completionLedger (ms : Nat → Machine) : Nat → List (Nat × Pending) :=
  ledger (fun t => (ms t).completions) fun t => beginsBlock (ms t) (ms (t + 1))

/-! Which steps push. -/

theorem leftRegions_eq {gone : List Region} (h : m.regions = gone ++ m'.regions) :
    leftRegions m m' = gone := by
  unfold leftRegions
  rw [h, List.length_append, Nat.add_sub_cancel, List.take_left]

theorem entersRegion_eq_false {gone : List Region} (h : m.regions = gone ++ m'.regions) :
    entersRegion m m' = false := by
  unfold entersRegion
  rw [h, List.length_append, decide_eq_false_iff_not]
  omega

theorem entersRegion_eq_true {region : Region} (h : m'.regions = region :: m.regions) :
    entersRegion m m' = true := by
  unfold entersRegion
  rw [h, List.length_cons, decide_eq_true_eq]
  omega

theorem beginsBlock_eq_false {gone : List Region} (h : m.regions = gone ++ m'.regions)
    (hgone : ∀ r ∈ gone, r.finally? = none) : beginsBlock m m' = false := by
  unfold beginsBlock
  rw [leftRegions_eq h, List.any_eq_false]
  intro r hr
  rw [hgone r hr]
  nofun

theorem beginsBlock_of_enters {region : Region} (h : m'.regions = region :: m.regions) :
    beginsBlock m m' = false := by
  have hnone : m.regions.length - m'.regions.length = 0 := by
    rw [h, List.length_cons]
    omega
  unfold beginsBlock leftRegions
  rw [hnone, List.take_zero]
  rfl

theorem beginsBlock_eq_true {gone : List Region} {region : Region} {block : Nat}
    (h : m.regions = gone ++ region :: m'.regions) (hfinally : region.finally? = some block) :
    beginsBlock m m' = true := by
  have hthrough : m.regions = (gone ++ [region]) ++ m'.regions := by
    rw [h, List.append_assoc, List.singleton_append]
  unfold beginsBlock
  rw [leftRegions_eq hthrough, List.any_eq_true]
  exact ⟨region, by simp, by rw [hfinally]; rfl⟩

namespace Follows

theorem stacked_regions (hdiscreet : host.Discreet) (hlaunched : Launched host (ms 0))
    (hfollows : Follows host ms n) :
    Stacked (fun t => (ms t).regions) (fun t => entersRegion (ms t) (ms (t + 1))) n := by
  refine ⟨(hlaunched.first hdiscreet).2.1, fun t ht => ?_⟩
  cases hfollows.shift hdiscreet hlaunched ht with
  | goes _ hregions _ _ =>
    have hnone : (ms t).regions = [] ++ (ms (t + 1)).regions := hregions.symm
    exact Or.inr ⟨entersRegion_eq_false hnone, [], hnone.symm⟩
  | enters _ _ _ _ _ _ hregions _ =>
    exact Or.inl ⟨entersRegion_eq_true hregions, _, _, hregions, List.suffix_refl _⟩
  | @begins gone region _ _ _ _ _ hregions _ _ _ _ _ _ =>
    have hthrough : (ms t).regions = (gone ++ [region]) ++ (ms (t + 1)).regions := by
      rw [hregions, List.append_assoc, List.singleton_append]
    exact Or.inr ⟨entersRegion_eq_false hthrough, _, hthrough.symm⟩
  | drops _ hregions _ _ => exact Or.inr ⟨entersRegion_eq_false hregions, _, hregions.symm⟩

theorem stacked_completions (hdiscreet : host.Discreet) (hlaunched : Launched host (ms 0))
    (hfollows : Follows host ms n) :
    Stacked (fun t => (ms t).completions) (fun t => beginsBlock (ms t) (ms (t + 1))) n := by
  refine ⟨(hlaunched.first hdiscreet).2.2, fun t ht => ?_⟩
  cases hfollows.shift hdiscreet hlaunched ht with
  | goes _ hregions hcompletions _ =>
    have hnone : (ms t).regions = [] ++ (ms (t + 1)).regions := hregions.symm
    exact Or.inr ⟨beginsBlock_eq_false hnone nofun, [], hcompletions⟩
  | enters _ _ _ _ _ _ hregions hcompletions =>
    exact Or.inr ⟨beginsBlock_of_enters hregions, [], hcompletions⟩
  | begins _ hregions _ hfinally _ hcompletions hkeeps _ =>
    exact Or.inl ⟨beginsBlock_eq_true hregions hfinally, _, _, hcompletions, hkeeps.suffix⟩
  | drops _ hregions hgone hkeeps =>
    exact Or.inr ⟨beginsBlock_eq_false hregions hgone, hkeeps.suffix⟩

end Follows

/-! Ownership. -/

/-- From one machine of a run to another, there are as many calls as a depth says: the call at that
depth is still the same one. -/
def UnderWay (ms : Nat → Machine) (depth s t : Nat) : Prop :=
  ∀ u, s ≤ u → u ≤ t → depth ≤ (ms u).frames.length

/-- The regions and completions of a machine of a run belong to calls that are under way. -/
structure Owned (ms : Nat → Machine) (t : Nat) : Prop where
  /-- A step either begins one call or ends some. -/
  calls : ∀ u < t, (∃ f, (ms (u + 1)).calls = f :: (ms u).calls) ∨
    ∃ k, (ms (u + 1)).calls = (ms u).calls.drop k
  fits : Fits (ms t).settings.maxTryDepth (ms t).frames.length (ms t).regions (ms t).completions
  regions : (regionLedger ms t).map Prod.snd = (ms t).regions
  completions : (completionLedger ms t).map Prod.snd = (ms t).completions
  /-- The call that entered a region is under way. -/
  entered : ∀ s r, (s, r) ∈ regionLedger ms t → s < t ∧ (ms s).opcode? = some .enterTry ∧
    (ms (s + 1)).regions = r :: (ms s).regions ∧ (ms s).frames.length = r.frameDepth ∧
      UnderWay ms r.frameDepth s t
  /-- The call that began a finally block is under way. -/
  begun : ∀ s p, (s, p) ∈ completionLedger ms t → s < t ∧
    (∃ kept, (ms (s + 1)).completions = p :: kept ∧ kept <:+ (ms s).completions) ∧
      (ms (s + 1)).frames.length = p.frameDepth ∧ UnderWay ms p.frameDepth s t
  /-- What a finally block resumes at its end was pushed when the same call began the block. -/
  resumed : ∀ p cs, (ms t).opcode? = some .endFinally → (ms t).completions = p :: cs →
    p.frameDepth = (ms t).frames.length → ∃ s older, completionLedger ms t = (s, p) :: older ∧
      (ms (s + 1)).frames.length = (ms t).frames.length ∧ UnderWay ms (ms t).frames.length s t

namespace Follows

theorem calls_step (hdiscreet : host.Discreet) (hlaunched : Launched host (ms 0))
    (hfollows : Follows host ms n) (ht : t < n) :
    (∃ f, (ms (t + 1)).calls = f :: (ms t).calls) ∨
      ∃ k, (ms (t + 1)).calls = (ms t).calls.drop k := by
  cases hfollows.shift hdiscreet hlaunched ht with
  | goes hcalls _ _ _ =>
    rcases hcalls with hsame | hcall
    · exact Or.inr ⟨0, hsame⟩
    · exact Or.inl hcall
  | enters _ _ _ _ _ hcalls _ _ => exact Or.inr ⟨0, hcalls⟩
  | begins hcalls _ _ _ _ _ _ _ => exact Or.inr ⟨_, hcalls⟩
  | drops hcalls _ _ _ => exact Or.inr ⟨_, hcalls⟩

/-- A step that enters a region. -/
theorem enters_region (hdiscreet : host.Discreet) (hlaunched : Launched host (ms 0))
    (hfollows : Follows host ms n) (hs : s < n)
    (hpushes : entersRegion (ms s) (ms (s + 1)) = true) :
    ∃ f rest block region, (ms s).frames = f :: rest ∧ (ms s).opcode? = some .enterTry ∧
      f.proto.blob.shortAt? (f.ip + 5) = some block ∧ region.finally? = address? block ∧
        region.frameDepth = (ms s).frames.length ∧ (ms (s + 1)).regions = region :: (ms s).regions := by
  have hnot {gone : List Region} (h : (ms s).regions = gone ++ (ms (s + 1)).regions) : False :=
    absurd (hpushes.symm.trans (entersRegion_eq_false h)) nofun
  cases hfollows.shift hdiscreet hlaunched hs with
  | goes _ hregions _ _ =>
    have hnone : (ms s).regions = [] ++ (ms (s + 1)).regions := hregions.symm
    exact (hnot hnone).elim
  | enters hframes hop hblock hfinally hdepth _ hregions _ =>
    exact ⟨_, _, _, _, hframes, hop, hblock, hfinally, hdepth, hregions⟩
  | @begins gone region _ _ _ _ _ hregions _ _ _ _ _ _ =>
    have hthrough : (ms s).regions = (gone ++ [region]) ++ (ms (s + 1)).regions := by
      rw [hregions, List.append_assoc, List.singleton_append]
    exact (hnot hthrough).elim
  | drops _ hregions _ _ => exact (hnot hregions).elim

/-- A region that a run has entered stays until its call is over or before. -/
theorem region_entered (hdiscreet : host.Discreet) (hlaunched : Launched host (ms 0))
    (hfollows : Follows host ms n) (ht : t ≤ n) {r : Region} (hmem : (s, r) ∈ regionLedger ms t) :
    s < t ∧ (ms s).opcode? = some .enterTry ∧ (ms (s + 1)).regions = r :: (ms s).regions ∧
      (ms s).frames.length = r.frameDepth ∧ UnderWay ms r.frameDepth s t := by
  have hstacked := hfollows.stacked_regions hdiscreet hlaunched
  obtain ⟨hs, hpushes, hhead⟩ := hstacked.pushed_of_mem ht hmem
  obtain ⟨f, rest, block, region, -, hop, -, -, hdepth, hregions⟩ :=
    hfollows.enters_region hdiscreet hlaunched (show s < n by omega) hpushes
  rw [hregions, List.head?_cons] at hhead
  obtain rfl := Option.some.inj hhead
  refine ⟨hs, hop, hregions, hdepth.symm, fun u hu hut => ?_⟩
  by_cases hfirst : u = s
  · rw [hfirst, hdepth]
  · have hthere := hstacked.mem_of_mem ht hmem (show s < u by omega) hut
    have hregion : region ∈ (ms u).regions := by
      rw [← hstacked.map_snd (show u ≤ n by omega)]
      exact List.mem_map_of_mem hthere
    exact ((hfollows.coherent hdiscreet hlaunched (by omega)).regionDepth region hregion).2

theorem length_calls (m : Machine) : m.calls.length = m.frames.length := List.length_map _

/-- A completion stays until its call is over or before. -/
theorem block_begun (hdiscreet : host.Discreet) (hlaunched : Launched host (ms 0))
    (hfollows : Follows host ms n) (ht : t ≤ n) {p : Pending}
    (hmem : (s, p) ∈ completionLedger ms t) :
    s < t ∧ (∃ kept, (ms (s + 1)).completions = p :: kept ∧ kept <:+ (ms s).completions) ∧
      (ms (s + 1)).frames.length = p.frameDepth ∧ UnderWay ms p.frameDepth s t := by
  have hstacked := hfollows.stacked_completions hdiscreet hlaunched
  obtain ⟨hs, hpushes, hhead⟩ := hstacked.pushed_of_mem ht hmem
  have hunderway (hdepth : p.frameDepth ≤ (ms s).frames.length) :
      UnderWay ms p.frameDepth s t := by
    intro u hu hut
    by_cases hfirst : u = s
    · rw [hfirst]
      exact hdepth
    · have hthere := hstacked.mem_of_mem ht hmem (show s < u by omega) hut
      have hcompletion : p ∈ (ms u).completions := by
        rw [← hstacked.map_snd (show u ≤ n by omega)]
        exact List.mem_map_of_mem hthere
      exact ((hfollows.coherent hdiscreet hlaunched (by omega)).completionDepth p hcompletion).2
  cases hfollows.shift hdiscreet hlaunched (show s < n by omega) with
  | goes _ hregions _ _ =>
    have hnone : (ms s).regions = [] ++ (ms (s + 1)).regions := hregions.symm
    exact absurd (hpushes.symm.trans (beginsBlock_eq_false hnone nofun)) nofun
  | enters _ _ _ _ _ _ hregions _ =>
    exact absurd (hpushes.symm.trans (beginsBlock_of_enters hregions)) nofun
  | begins hcalls _ _ _ _ hcompletions hkeeps _ =>
    rw [hcompletions, List.head?_cons] at hhead
    obtain rfl := Option.some.inj hhead
    refine ⟨hs, ⟨_, hcompletions, hkeeps.suffix⟩, rfl, hunderway ?_⟩
    -- The calls of the block are what is left of those before the step.
    have hlength := congrArg List.length hcalls
    rw [length_calls, List.length_drop, length_calls] at hlength
    dsimp only
    omega
  | drops _ hregions hgone _ =>
    exact absurd (hpushes.symm.trans (beginsBlock_eq_false hregions hgone)) nofun

end Follows

/-- In every machine of a run, the regions and the completions fit the calls, and each of them was
pushed for the very call that is now under way at its depth. -/
theorem regions_and_completions_owned (hdiscreet : host.Discreet)
    (hlaunched : Launched host (ms 0)) (hfollows : Follows host ms n) (ht : t ≤ n) :
    Owned ms t := by
  have hcompletions := (hfollows.stacked_completions hdiscreet hlaunched).map_snd ht
  refine
    { calls := fun u hu => hfollows.calls_step hdiscreet hlaunched (by omega)
      fits := hfollows.coherent hdiscreet hlaunched ht
      regions := (hfollows.stacked_regions hdiscreet hlaunched).map_snd ht
      completions := hcompletions
      entered := fun s r hmem => hfollows.region_entered hdiscreet hlaunched ht hmem
      begun := fun s p hmem => hfollows.block_begun hdiscreet hlaunched ht hmem
      resumed := ?_ }
  intro p cs _ hp hdepth
  change (completionLedger ms t).map Prod.snd = (ms t).completions at hcompletions
  rw [hp] at hcompletions
  obtain ⟨⟨s, q⟩, older, hledger, rfl, -⟩ := List.map_eq_cons_iff.1 hcompletions
  have hmem : (s, q) ∈ completionLedger ms t := by
    rw [hledger]
    exact List.mem_cons_self
  obtain ⟨-, -, hbegan, hunderway⟩ := hfollows.block_begun hdiscreet hlaunched ht hmem
  rw [← hdepth]
  exact ⟨s, older, hledger, hbegan, hunderway⟩

/-- A script that enters a region, leaves it by its end, and has only the end of the finally block
left to do. -/
def cleanupScript : Blob :=
  let region := ((({ constants := #[.nil] } : Blob).pushOp .enterTry 1).pushShort 0 1).pushShort 0 1
  ((region.pushShort 8 1).pushOp .popTry 1).pushOp .endFinally 2

theorem regions_and_completions_owned_cleanupScript :
    (states .idle (bare.entered (.script cleanupScript)) 2).opcode? = some .endFinally ∧
      Owned (states .idle (bare.entered (.script cleanupScript))) 2 :=
  ⟨by decide +kernel, regions_and_completions_owned Host.discreet_idle
    (.script rfl (fun _ => ⟨rfl, rfl, rfl⟩) _)
    (follows_states (show ∀ t < 2, _ by decide +kernel)) (le_refl 2)⟩

end ScriptMachine.Machine
