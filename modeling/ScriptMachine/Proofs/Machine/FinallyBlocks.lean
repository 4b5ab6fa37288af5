import ScriptMachine.Proofs.Machine.Ownership

/-!
Finally blocks run once. A region with a finally block that is left, in whatever way, is left once
and last of the regions that the step leaves, and the same step begins the block with the completion
of that way. So each block begins once for each time its region was entered, inner blocks begin
before outer ones, and the end of a block takes the completion that the block began with.
-/

namespace ScriptMachine.Machine

variable {host : Host} {m m' : Machine} {ms : Nat → Machine} {n s t u w : Nat} {r : Region}

/-- A region of the ledger is left in a step. -/
def LeftIn (ms : Nat → Machine) (e : Nat × Region) (w : Nat) : Prop :=
  e ∈ regionLedger ms w ∧ e ∉ regionLedger ms (w + 1)

/-- The finally block that step `w` began has its end as the next instruction of the machine. -/
def EndsAt (ms : Nat → Machine) (w u : Nat) : Prop :=
  (ms u).opcode? = some .endFinally ∧ ∃ p older, completionLedger ms u = (w, p) :: older

/-- A step begins the finally block of a region that is left: it pushes one completion, and the
innermost call goes on at the block. -/
structure BeginsFor (host : Host) (ms : Nat → Machine) (e : Nat × Region) (block w : Nat) :
    Prop where
  left : LeftIn ms e w
  finally_eq : e.2.finally? = some block
  regions : (ms (w + 1)).regions = (ms e.1).regions
  ip : (ms (w + 1)).frames.head?.map Frame.ip = some block
  completion : ∃ c older, ExitPath host (ms w).collectIfDue (ms (w + 1)) e.2 c ∧
    completionLedger ms (w + 1) = (w,
      { tryDepth := (ms (w + 1)).regions.length
        frameDepth := (ms (w + 1)).frames.length
        completion := c }) :: older ∧ older <:+ completionLedger ms w

/-- The finally blocks of the regions that a run enters run once. -/
structure FinallyOnce (host : Host) (ms : Nat → Machine) (n : Nat) : Prop where
  /-- The ledger has every region that was entered. -/
  entered : ∀ s < n, ∀ r, (ms (s + 1)).regions = r :: (ms s).regions ↔
    (s, r) ∈ regionLedger ms (s + 1)
  /-- Regions are entered by an instruction that names the block. -/
  address : ∀ s < n, ∀ r, (s, r) ∈ regionLedger ms (s + 1) → ∃ f rest block,
    (ms s).frames = f :: rest ∧ (ms s).opcode? = some .enterTry ∧
      f.proto.blob.shortAt? (f.ip + 5) = some block ∧ r.finally? = address? block
  /-- A region is left at most once. -/
  once : ∀ e w w', w < n → w' < n → LeftIn ms e w → LeftIn ms e w' → w = w'
  /-- When a region with a finally block is left, the block begins. -/
  begins : ∀ e block w, w < n → LeftIn ms e w → e.2.finally? = some block →
    BeginsFor host ms e block w
  /-- A completion is pushed for exactly one region. -/
  behalf : ∀ w < n, ∀ p, (w, p) ∈ completionLedger ms (w + 1) →
    ∃! e : Nat × Region, LeftIn ms e w ∧ e.2.finally? ≠ none
  /-- The end of a block takes the completion on top, and it is gone then. -/
  taken : ∀ u < n, (ms u).opcode? = some .endFinally → ∃ w p older,
    completionLedger ms u = (w, p) :: older ∧ p.frameDepth = (ms u).frames.length ∧
      (w, p) ∉ completionLedger ms (u + 1)
  /-- A completion is taken at most once. -/
  consumed : ∀ w u u', u ≤ n → u' ≤ n → EndsAt ms w u → EndsAt ms w u' → u = u'
  /-- Of two regions, the one that was entered later is left first if it has a finally block. -/
  innermost : ∀ e e' t w, t ≤ w → w < n → e ∈ regionLedger ms t → e' ∈ regionLedger ms t →
    e.1 < e'.1 → e'.2.finally? ≠ none → LeftIn ms e w → ∃ w', t ≤ w' ∧ w' < w ∧ LeftIn ms e' w'
  /-- The last call does not return while a finally block has yet to run. -/
  returned : ∀ v m', step host (ms n) = .ok (some (.returned v)) m' →
    ∀ e ∈ regionLedger ms n, e.2.finally? = none

/-- What a step makes of the ledgers. -/
inductive Recorded (host : Host) (ms : Nat → Machine) (w : Nat) : Prop where
  | enters {region : Region} (hledger : regionLedger ms (w + 1) = (w, region) :: regionLedger ms w)
      (hkept : completionLedger ms (w + 1) <:+ completionLedger ms w)
  | passes {left : List (Nat × Region)} (hledger : regionLedger ms w = left ++ regionLedger ms (w + 1))
      (hleft : ∀ e ∈ left, e.2.finally? = none)
      (hkept : completionLedger ms (w + 1) <:+ completionLedger ms w)
  | begins {newer : List (Nat × Region)} {s block : Nat} {region : Region} {c : Completion}
      {older : List (Nat × Pending)}
      (hledger : regionLedger ms w = newer ++ (s, region) :: regionLedger ms (w + 1))
      (hnewer : ∀ e ∈ newer, e.2.finally? = none) (hfinally : region.finally? = some block)
      (hip : (ms (w + 1)).frames.head?.map Frame.ip = some block)
      (hcompletions : completionLedger ms (w + 1) = (w,
        { tryDepth := (ms (w + 1)).regions.length
          frameDepth := (ms (w + 1)).frames.length
          completion := c }) :: older)
      (holder : older <:+ completionLedger ms w)
      (hexit : ExitPath host (ms w).collectIfDue (ms (w + 1)) region c)

namespace Follows

theorem recorded (hdiscreet : host.Discreet) (hlaunched : Launched host (ms 0))
    (hfollows : Follows host ms n) (hw : w < n) : Recorded host ms w := by
  have hregions := hfollows.stacked_regions hdiscreet hlaunched
  have hcompletions := hfollows.stacked_completions hdiscreet hlaunched
  have hkept (hnot : beginsBlock (ms w) (ms (w + 1)) = false) :
      completionLedger ms (w + 1) <:+ completionLedger ms w := by
    rcases hcompletions.ledger_succ hw with ⟨_, _, hpushes, -⟩ | ⟨-, hsuffix⟩
    · exact absurd (hnot.symm.trans hpushes) nofun
    · exact hsuffix
  have hpasses {gone : List Region} (h : (ms w).regions = gone ++ (ms (w + 1)).regions)
      (hgone : ∀ r ∈ gone, r.finally? = none) : Recorded host ms w := by
    obtain ⟨left, hledger, hleft⟩ := hregions.popped hw h (entersRegion_eq_false h)
    refine .passes hledger (fun e he => hgone e.2 ?_) (hkept (beginsBlock_eq_false h hgone))
    rw [← hleft]
    exact List.mem_map_of_mem he
  cases hfollows.shift hdiscreet hlaunched hw with
  | goes _ hsame _ _ =>
    have hnone : (ms w).regions = [] ++ (ms (w + 1)).regions := hsame.symm
    exact hpasses hnone nofun
  | drops _ hthrough hgone _ => exact hpasses hthrough hgone
  | enters _ _ _ _ _ _ hentered _ =>
    rcases hregions.ledger_succ hw with ⟨region, older, -, hledger, holder, -⟩ | ⟨hnot, -⟩
    · have hlength : older.length = (regionLedger ms w).length := by
        have hnow := congrArg List.length (hregions.map_snd (show w ≤ n by omega))
        have hnext := congrArg List.length (hregions.map_snd (show w + 1 ≤ n by omega))
        rw [hledger, hentered] at hnext
        rw [List.length_map] at hnow
        simp only [List.map_cons, List.length_cons, List.length_map] at hnext
        unfold regionLedger
        omega
      rw [holder.eq_of_length hlength] at hledger
      exact .enters hledger (hkept (beginsBlock_of_enters hentered))
    · exact absurd (hnot.symm.trans (entersRegion_eq_true hentered)) nofun
  | @begins gone region block k c kept _ hthrough hgone hfinally hip hpending _ hexit =>
    have hsplit : (ms w).regions = (gone ++ [region]) ++ (ms (w + 1)).regions := by
      rw [hthrough, List.append_assoc, List.singleton_append]
    obtain ⟨left, hledger, hleft⟩ := hregions.popped hw hsplit (entersRegion_eq_false hsplit)
    obtain ⟨newer, last, rfl, hnewer, hlast⟩ := List.map_eq_append_iff.1 hleft
    obtain ⟨⟨s, region'⟩, rfl, hregion⟩ := List.map_eq_singleton_iff.1 hlast
    obtain rfl : region' = region := hregion
    rcases hcompletions.ledger_succ hw with ⟨p, older, -, hpushed, holder, hhead⟩ | ⟨hnot, -⟩
    · rw [hpending, List.head?_cons] at hhead
      obtain rfl := Option.some.inj hhead
      rw [List.append_assoc, List.singleton_append] at hledger
      refine .begins hledger (fun e he => hgone e.2 ?_) hfinally hip hpushed holder hexit
      rw [← hnewer]
      exact List.mem_map_of_mem he
    · exact absurd (hnot.symm.trans (beginsBlock_eq_true hthrough hfinally)) nofun

/-- The ledger has exactly the regions that steps enter. -/
theorem entered_iff (hdiscreet : host.Discreet) (hlaunched : Launched host (ms 0))
    (hfollows : Follows host ms n) (hs : s < n) :
    (ms (s + 1)).regions = r :: (ms s).regions ↔ (s, r) ∈ regionLedger ms (s + 1) := by
  have hstacked := hfollows.stacked_regions hdiscreet hlaunched
  constructor
  · intro hentered
    rcases hstacked.ledger_succ hs with ⟨region, older, -, hledger, -, hhead⟩ | ⟨hnot, -⟩
    · rw [hentered, List.head?_cons] at hhead
      obtain rfl := Option.some.inj hhead
      unfold regionLedger
      rw [hledger]
      exact List.mem_cons_self
    · exact absurd (hnot.symm.trans (entersRegion_eq_true hentered)) nofun
  · intro hmem
    exact (hfollows.region_entered hdiscreet hlaunched (show s + 1 ≤ n by omega) hmem).2.2.1

/-- The region with a finally block that a step leaves is the last one it leaves. -/
theorem begins_for {e : Nat × Region} {block : Nat} (hdiscreet : host.Discreet)
    (hlaunched : Launched host (ms 0)) (hfollows : Follows host ms n) (hw : w < n)
    (hleft : LeftIn ms e w) (hfinally : e.2.finally? = some block) :
    BeginsFor host ms e block w := by
  have hstacked := hfollows.stacked_regions hdiscreet hlaunched
  have hhere := hleft.1
  cases hfollows.recorded hdiscreet hlaunched hw with
  | enters hledger _ =>
    refine absurd ?_ hleft.2
    rw [hledger]
    exact List.mem_cons_of_mem _ hhere
  | passes hledger hnone _ =>
    rw [hledger] at hhere
    rcases List.mem_append.1 hhere with hmem | hmem
    · exact absurd (hfinally.symm.trans (hnone e hmem)) nofun
    · exact absurd hmem hleft.2
  | @begins newer s block' region c older hledger hnewer hfinally' hip hcompletions holder hexit =>
    rw [hledger] at hhere
    rcases List.mem_append.1 hhere with hmem | hmem
    · exact absurd (hfinally.symm.trans (hnewer e hmem)) nofun
    rcases List.mem_cons.1 hmem with rfl | hmem
    · obtain rfl := Option.some.inj (hfinally.symm.trans hfinally')
      refine ⟨hleft, hfinally, ?_, hip, c, older, hexit, hcompletions, holder⟩
      have hentered :=
        (hfollows.region_entered hdiscreet hlaunched (show w ≤ n by omega) hleft.1).2.2.1
      have hpushed := hstacked.ledger_of_append (show w ≤ n by omega) hledger
      have hmap := hstacked.map_snd (show s + 1 ≤ n by
        have := (hstacked.pushed_of_mem (show w ≤ n by omega) hleft.1).1
        omega)
      rw [hpushed, List.map_cons, hentered] at hmap
      have hbelow := hstacked.map_snd (show w + 1 ≤ n by omega)
      exact hbelow.symm.trans (List.cons.inj hmap).2
    · exact absurd hmem hleft.2

/-- A completion is pushed for the one region with a finally block that the step leaves. -/
theorem behalf_unique {p : Pending} (hdiscreet : host.Discreet)
    (hlaunched : Launched host (ms 0)) (hfollows : Follows host ms n) (hw : w < n)
    (hp : (w, p) ∈ completionLedger ms (w + 1)) :
    ∃! e : Nat × Region, LeftIn ms e w ∧ e.2.finally? ≠ none := by
  have hstacked := hfollows.stacked_regions hdiscreet hlaunched
  have hnever (hkept : completionLedger ms (w + 1) <:+ completionLedger ms w) : False := by
    have hless := ((hfollows.stacked_completions hdiscreet hlaunched).pushed_of_mem
      (show w ≤ n by omega) (hkept.subset hp)).1
    omega
  cases hfollows.recorded hdiscreet hlaunched hw with
  | enters _ hkept => exact (hnever hkept).elim
  | passes _ _ hkept => exact (hnever hkept).elim
  | @begins newer s block region c older hledger hnewer hfinally _ _ _ _ =>
    have hsorted : (regionLedger ms w).Pairwise fun e d => d.1 < e.1 :=
      hstacked.pairwise (show w ≤ n by omega)
    rw [hledger] at hsorted
    have hbelow := (List.pairwise_cons.1 (List.pairwise_append.1 hsorted).2.1).1
    have hmem : (s, region) ∈ regionLedger ms w := by
      rw [hledger]
      exact List.mem_append_right _ List.mem_cons_self
    have hgone : (s, region) ∉ regionLedger ms (w + 1) := fun h => by
      have hless := hbelow _ h
      omega
    refine ⟨(s, region), ⟨⟨hmem, hgone⟩, by rw [hfinally]; nofun⟩, ?_⟩
    intro e he
    have hhere := he.1.1
    rw [hledger] at hhere
    rcases List.mem_append.1 hhere with hmem | hmem
    · exact absurd (hnewer e hmem) he.2
    rcases List.mem_cons.1 hmem with heq | hmem
    · exact heq
    · exact absurd hmem he.1.2

/-- The end of a finally block takes the completion on top. -/
theorem completion_taken (hdiscreet : host.Discreet) (hlaunched : Launched host (ms 0))
    (hfollows : Follows host ms n) (hu : u < n) (hop : (ms u).opcode? = some .endFinally) :
    ∃ w p older, completionLedger ms u = (w, p) :: older ∧ p.frameDepth = (ms u).frames.length ∧
      (w, p) ∉ completionLedger ms (u + 1) := by
  have hstacked := hfollows.stacked_completions hdiscreet hlaunched
  have htop {kept : List Pending} (hkeeps : (ms u).Keeps kept)
      (hnext : (ms (u + 1)).completions.length =
        kept.length + (beginsBlock (ms u) (ms (u + 1))).toNat) :
      ∃ w p older, completionLedger ms u = (w, p) :: older ∧
        p.frameDepth = (ms u).frames.length ∧ (w, p) ∉ completionLedger ms (u + 1) := by
    obtain ⟨p, cs, hcompletions, hdepth, hkept⟩ := hkeeps.ended hop
    have hmap := hstacked.map_snd (show u ≤ n by omega)
    rw [hcompletions] at hmap
    obtain ⟨⟨w, q⟩, older, hledger, rfl, holder⟩ := List.map_eq_cons_iff.1 hmap
    refine ⟨w, q, older, hledger, hdepth, hstacked.top_popped hu hledger ?_⟩
    have hlength := congrArg List.length holder
    have hle := hkept.length_le
    rw [List.length_map] at hlength
    omega
  cases hfollows.shift hdiscreet hlaunched hu with
  | goes _ _ _ hother => exact absurd hop hother
  | enters _ hother _ _ _ _ _ _ => exact absurd (hop.symm.trans hother) nofun
  | begins _ hregions _ hfinally _ hcompletions hkeeps _ =>
    refine htop hkeeps ?_
    rw [hcompletions, beginsBlock_eq_true hregions hfinally]
    rfl
  | drops _ hregions hgone hkeeps =>
    refine htop hkeeps ?_
    rw [beginsBlock_eq_false hregions hgone]
    rfl

theorem ends_once {w u u' : Nat} (hdiscreet : host.Discreet) (hlaunched : Launched host (ms 0))
    (hfollows : Follows host ms n) (hu : u ≤ n) (hu' : u' ≤ n) (hends : EndsAt ms w u)
    (hends' : EndsAt ms w u') : u = u' := by
  have hstacked := hfollows.stacked_completions hdiscreet hlaunched
  have hlater {u u' : Nat} (hu' : u' ≤ n) (hends : EndsAt ms w u) (hends' : EndsAt ms w u') :
      ¬ u < u' := by
    intro hlt
    obtain ⟨hop, p, older, hledger⟩ := hends
    obtain ⟨-, p', older', hledger'⟩ := hends'
    obtain ⟨w₁, p₁, older₁, hledger₁, -, hgone⟩ :=
      hfollows.completion_taken hdiscreet hlaunched (show u < n by omega) hop
    rw [hledger] at hledger₁
    obtain ⟨rfl, rfl⟩ := Prod.mk.inj (List.cons.inj hledger₁).1
    have hmem : (w, p) ∈ completionLedger ms u := by
      rw [hledger]
      exact List.mem_cons_self
    have hmem' : (w, p') ∈ completionLedger ms u' := by
      rw [hledger']
      exact List.mem_cons_self
    obtain rfl := hstacked.eq_of_mem (show u ≤ n by omega) hu' hmem hmem'
    have hw := (hstacked.pushed_of_mem (show u ≤ n by omega) hmem).1
    exact hgone (hstacked.mem_of_mem hu' hmem' (by omega) (by omega))
  have hle := hlater hu' hends hends'
  have hge := hlater hu hends' hends
  omega

/-- A region is left only after the regions inside it whose finally blocks have to run. -/
theorem inner_left_before {e e' : Nat × Region} (hdiscreet : host.Discreet)
    (hlaunched : Launched host (ms 0)) (hfollows : Follows host ms n) (htw : t ≤ w) (hw : w < n)
    (he' : e' ∈ regionLedger ms t) (hinner : e.1 < e'.1) (hfinally : e'.2.finally? ≠ none)
    (hleft : LeftIn ms e w) : ∃ w', t ≤ w' ∧ w' < w ∧ LeftIn ms e' w' := by
  have hstacked := hfollows.stacked_regions hdiscreet hlaunched
  refine Stacked.exists_leaves he' (fun hthere => ?_) htw
  have hthere : e' ∈ regionLedger ms w := hthere
  have hhere := hleft.1
  have hsorted : (regionLedger ms w).Pairwise fun e d => d.1 < e.1 :=
    hstacked.pairwise (show w ≤ n by omega)
  cases hfollows.recorded hdiscreet hlaunched hw with
  | enters hledger _ =>
    refine hleft.2 ?_
    rw [hledger]
    exact List.mem_cons_of_mem _ hhere
  | passes hledger hnone _ =>
    rw [hledger] at hhere hthere hsorted
    have hbelow := (List.pairwise_append.1 hsorted).2.2
    rcases List.mem_append.1 hhere with hmem | hmem
    · rcases List.mem_append.1 hthere with hmem' | hmem'
      · exact hfinally (hnone e' hmem')
      · have hless := hbelow e hmem e' hmem'
        omega
    · exact hleft.2 hmem
  | begins hledger hnewer _ _ _ _ _ =>
    rw [hledger] at hhere hthere hsorted
    obtain ⟨-, hrest, hbelow⟩ := List.pairwise_append.1 hsorted
    rcases List.mem_append.1 hthere with hmem' | hmem'
    · exact hfinally (hnewer e' hmem')
    rcases List.mem_append.1 hhere with hmem | hmem
    · have hless := hbelow e hmem e' hmem'
      omega
    rcases List.mem_cons.1 hmem with rfl | hmem
    · rcases List.mem_cons.1 hmem' with rfl | hmem'
      · omega
      · have hless := (List.pairwise_cons.1 hrest).1 e' hmem'
        omega
    · exact hleft.2 hmem

end Follows

/-- When the last call returns, no region is left but those that the return passes over. -/
theorem Coherent.regions_of_last {gone older : List Region} {f : Frame} (hm : m.Coherent)
    (hframes : m.frames = [f]) (hregions : m.regions = gone ++ older)
    (holder : ∀ r ∈ older.head?, r.frameDepth ≠ m.frames.length) : older = [] := by
  have hless := hm.depth_lt_of_left hregions holder
  cases older with
  | nil => rfl
  | cons region older =>
    have hbelow := hless region List.mem_cons_self
    have hpositive := (hm.regionDepth region (by simp [hregions])).1
    rw [hframes, List.length_singleton] at hbelow
    omega

theorem none_of_returned (hdiscreet : host.Discreet) (hm : m.Coherent) {v : Value}
    (hstep : step host m = .ok (some (.returned v)) m') : ∀ r ∈ m.regions, r.finally? = none := by
  obtain ⟨f, rest, hframes⟩ := exists_frame_of_step hstep
  have houtcome := step_outcome hdiscreet hframes hm
  rw [hstep] at houtcome
  cases houtcome with
  | returned hlast hreturning hregions hgone holder hquiet =>
    have hdue : m.collectIfDue.Coherent := (undisturbed_collectIfDue m).coherent hm
    rw [hdue.regions_of_last hlast hregions holder, List.append_nil, regions_collectIfDue]
      at hregions
    intro r hr
    rw [hregions] at hr
    exact (hgone r hr).2

/-- In every run, each region with a finally block is left at most once, in whatever way it is left
the block begins in the same step with the completion of that way, the block of a region inside
another begins first, and each completion is taken by the end of one block. -/
theorem finally_blocks_once (hdiscreet : host.Discreet) (hlaunched : Launched host (ms 0))
    (hfollows : Follows host ms n) : FinallyOnce host ms n where
  entered s hs r := hfollows.entered_iff hdiscreet hlaunched hs
  address s hs r hmem := by
    have hentered := (hfollows.entered_iff hdiscreet hlaunched hs).2 hmem
    obtain ⟨f, rest, block, region, hframes, hop, hblock, hfinally, -, hregions⟩ :=
      hfollows.enters_region hdiscreet hlaunched hs (entersRegion_eq_true hentered)
    obtain ⟨rfl, -⟩ := List.cons.inj (hentered.symm.trans hregions)
    exact ⟨f, rest, block, hframes, hop, hblock, hfinally⟩
  once e w w' hw hw' hleft hleft' :=
    (hfollows.stacked_regions hdiscreet hlaunched).leaves_once hw hw' hleft hleft'
  begins e block w hw hleft hfinally :=
    hfollows.begins_for hdiscreet hlaunched hw hleft hfinally
  behalf w hw p hp := hfollows.behalf_unique hdiscreet hlaunched hw hp
  taken u hu hop := hfollows.completion_taken hdiscreet hlaunched hu hop
  consumed w u u' hu hu' hends hends' :=
    hfollows.ends_once hdiscreet hlaunched hu hu' hends hends'
  innermost e e' t w htw hw _ he' hinner hfinally hleft :=
    hfollows.inner_left_before hdiscreet hlaunched htw hw he' hinner hfinally hleft
  returned v m' hstep e he := by
    have hm := hfollows.coherent hdiscreet hlaunched (le_refl n)
    refine none_of_returned hdiscreet hm hstep e.2 ?_
    rw [← (hfollows.stacked_regions hdiscreet hlaunched).map_snd (le_refl n)]
    exact List.mem_map_of_mem he

/-- A region that is left by its end. -/
theorem finally_blocks_once_cleanupScript :
    let ms := states .idle (bare.entered (.script cleanupScript))
    beginsBlock (ms 1) (ms 2) = true ∧ FinallyOnce .idle ms 2 :=
  ⟨by decide +kernel, finally_blocks_once Host.discreet_idle
    (.script rfl (fun _ => ⟨rfl, rfl, rfl⟩) _)
    (follows_states (show ∀ t < 2, _ by decide +kernel))⟩

end ScriptMachine.Machine
