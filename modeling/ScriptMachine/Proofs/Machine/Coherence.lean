import Mathlib.Data.List.TakeWhile
import ScriptMachine.Proofs.Machine.Turn.Instruction

/-!
Regions and completions fit the calls under way. Newer ones belong to calls at least as deep as
older ones, and no call has more regions than the settings allow. A throw drops completions by the
number of regions that are left and a return drops them by the number of calls, so one more fact
ties the two together: a region above those that were left when a finally block began is at least
as deep as the block.
-/

namespace ScriptMachine

/-- Regions and completions, the newest first, fit `depth` calls with at most `limit` regions
each. -/
structure Fits (limit depth : Nat) (regions : List Region) (completions : List Pending) :
    Prop where
  regionOrder : regions.Pairwise fun r s => s.frameDepth ≤ r.frameDepth
  regionDepth : ∀ r ∈ regions, 1 ≤ r.frameDepth ∧ r.frameDepth ≤ depth
  regionCount : ∀ d, regions.countP (fun r => r.frameDepth == d) ≤ limit
  completionOrder : completions.Pairwise fun p q => q.frameDepth ≤ p.frameDepth
  completionDepth : ∀ p ∈ completions, 1 ≤ p.frameDepth ∧ p.frameDepth ≤ depth
  linked : ∀ p ∈ completions, ∀ newer r older, regions = newer ++ r :: older →
    p.tryDepth ≤ older.length → p.frameDepth ≤ r.frameDepth

namespace Fits

variable {limit depth : Nat} {regions : List Region} {completions : List Pending}

theorem empty (limit depth : Nat) : Fits limit depth [] [] where
  regionOrder := .nil
  regionDepth := nofun
  regionCount := by simp
  completionOrder := .nil
  completionDepth := nofun
  linked := nofun

/-- A call begins. -/
theorem deepen (h : Fits limit depth regions completions) :
    Fits limit (depth + 1) regions completions where
  regionOrder := h.regionOrder
  regionDepth r hr := by
    have hdepth := h.regionDepth r hr
    omega
  regionCount := h.regionCount
  completionOrder := h.completionOrder
  completionDepth p hp := by
    have hdepth := h.completionDepth p hp
    omega
  linked := h.linked

/-- Newer regions are left. -/
theorem leave {gone : List Region} (h : Fits limit depth (gone ++ regions) completions) :
    Fits limit depth regions completions where
  regionOrder := (List.pairwise_append.1 h.regionOrder).2.1
  regionDepth r hr := h.regionDepth r (List.mem_append_right gone hr)
  regionCount d := by
    have hcount := h.regionCount d
    rw [List.countP_append] at hcount
    omega
  completionOrder := h.completionOrder
  completionDepth := h.completionDepth
  linked p hp newer r older hregions :=
    h.linked p hp (gone ++ newer) r older (by rw [hregions, List.append_assoc])

/-- Newer completions are dropped. -/
theorem suffix {kept : List Pending} (h : Fits limit depth regions completions)
    (hkept : kept <:+ completions) : Fits limit depth regions kept where
  regionOrder := h.regionOrder
  regionDepth := h.regionDepth
  regionCount := h.regionCount
  completionOrder := h.completionOrder.sublist hkept.sublist
  completionDepth p hp := h.completionDepth p (hkept.subset hp)
  linked p hp := h.linked p (hkept.subset hp)

/-- The innermost call begins a finally block. -/
theorem begin (h : Fits limit depth regions completions) (hdepth : 1 ≤ depth) (c : Completion) :
    Fits limit depth regions ({ tryDepth := regions.length, frameDepth := depth, completion := c } ::
      completions) where
  regionOrder := h.regionOrder
  regionDepth := h.regionDepth
  regionCount := h.regionCount
  completionOrder := List.pairwise_cons.2
    ⟨fun p hp => (h.completionDepth p hp).2, h.completionOrder⟩
  completionDepth p hp := by
    rcases List.mem_cons.1 hp with rfl | hmem
    · exact ⟨hdepth, le_refl depth⟩
    · exact h.completionDepth p hmem
  linked p hp newer r older hregions hle := by
    rcases List.mem_cons.1 hp with rfl | hmem
    · -- Every region stands below the place where the next one would go.
      have hlength : regions.length = newer.length + (older.length + 1) := by
        rw [hregions, List.length_append, List.length_cons]
      dsimp only at hle
      omega
    · exact h.linked p hmem newer r older hregions hle

theorem pend (h : Fits limit depth regions completions) (hdepth : 1 ≤ depth)
    (c : Option Completion) :
    Fits limit depth regions (Machine.pendings regions depth c ++ completions) := by
  cases c with
  | none => exact h
  | some c => exact h.begin hdepth c

/-- The regions of the innermost call are on top. -/
theorem countP_eq_takeWhile (h : Fits limit depth regions completions) :
    regions.countP (fun r => r.frameDepth == depth) =
      (regions.takeWhile fun r => r.frameDepth == depth).length := by
  have horder := h.regionOrder
  have hdepth := h.regionDepth
  clear h
  induction regions with
  | nil => rfl
  | cons r rest ih =>
    obtain ⟨hbelow, horder⟩ := List.pairwise_cons.1 horder
    by_cases hr : r.frameDepth = depth
    · rw [List.countP_cons_of_pos (by simpa using hr), List.takeWhile_cons_of_pos (by simpa using hr),
        List.length_cons, ih horder fun s hs => hdepth s (List.mem_cons_of_mem r hs)]
    · rw [List.countP_cons_of_neg (by simpa using hr), List.takeWhile_cons_of_neg (by simpa using hr),
        List.length_nil]
      refine List.countP_eq_zero.2 fun s hs => ?_
      have hless := hbelow s hs
      have hbound := (hdepth r List.mem_cons_self).2
      simp only [beq_iff_eq]
      omega

/-- The innermost call enters a region. -/
theorem enter (h : Fits limit depth regions completions) (hdepth : 1 ≤ depth) {region : Region}
    (hregion : region.frameDepth = depth)
    (hfew : (regions.takeWhile fun r => r.frameDepth == depth).length < limit) :
    Fits limit depth (region :: regions) completions where
  regionOrder := List.pairwise_cons.2
    ⟨fun r hr => by rw [hregion]; exact (h.regionDepth r hr).2, h.regionOrder⟩
  regionDepth r hr := by
    rcases List.mem_cons.1 hr with rfl | hmem
    · omega
    · exact h.regionDepth r hmem
  regionCount d := by
    by_cases hd : region.frameDepth = d
    · have hcount := h.countP_eq_takeWhile
      rw [← hregion, hd] at hcount hfew
      rw [List.countP_cons_of_pos (by simpa using hd)]
      omega
    · rw [List.countP_cons_of_neg (by simpa using hd)]
      exact h.regionCount d
  completionOrder := h.completionOrder
  completionDepth := h.completionDepth
  linked p hp newer r older hregions hle := by
    cases newer with
    | nil =>
      obtain ⟨rfl, rfl⟩ := List.cons.inj hregions
      rw [hregion]
      exact (h.completionDepth p hp).2
    | cons s newer =>
      obtain ⟨-, hrest⟩ := List.cons.inj hregions
      exact h.linked p hp newer r older hrest hle

/-- The innermost call is over. -/
theorem shallower (h : Fits limit (depth + 1) regions completions)
    (hregions : ∀ r ∈ regions, r.frameDepth ≤ depth) :
    Fits limit depth regions (completions.dropWhile fun p => decide (depth < p.frameDepth)) := by
  have hkept := List.dropWhile_suffix (l := completions) fun p => decide (depth < p.frameDepth)
  have hfits := h.suffix hkept
  refine { hfits with regionDepth := ?_, completionDepth := ?_ }
  · intro r hr
    exact ⟨(h.regionDepth r hr).1, hregions r hr⟩
  · intro p hp
    refine ⟨(hfits.completionDepth p hp).1, ?_⟩
    -- The newest completion that is kept is no deeper than the calls, and the others follow it.
    cases hcase : completions.dropWhile fun p => decide (depth < p.frameDepth) with
    | nil =>
      rw [hcase] at hp
      cases hp
    | cons q rest =>
      have hq := List.head_dropWhile_not (l := completions)
        (fun p => decide (depth < p.frameDepth)) (by rw [hcase]; nofun)
      simp only [hcase, List.head_cons, decide_eq_false_iff_not, not_lt] at hq
      have horder := hfits.completionOrder
      rw [hcase] at hp horder
      rcases List.mem_cons.1 hp with rfl | hmem
      · exact hq
      · exact ((List.pairwise_cons.1 horder).1 p hmem).trans hq

/-- A throw goes back to the call of a region. -/
theorem unwind {gone : List Region} {region : Region}
    (h : Fits limit depth (gone ++ region :: regions) completions) :
    Fits limit region.frameDepth regions
      (completions.dropWhile fun p => decide (regions.length < p.tryDepth)) := by
  have hkept := List.dropWhile_suffix (l := completions) fun p => decide (regions.length < p.tryDepth)
  have hfits := (h.leave.suffix hkept : Fits limit depth (region :: regions) _)
  have hbelow := (List.pairwise_cons.1 hfits.regionOrder).1
  have hone : Fits limit depth ([region] ++ regions) _ := hfits
  have hrest := hone.leave
  refine { hrest with regionDepth := ?_, completionDepth := ?_ }
  · intro r hr
    exact ⟨(hrest.regionDepth r hr).1, hbelow r hr⟩
  · intro p hp
    refine ⟨(hfits.completionDepth p hp).1, ?_⟩
    cases hcase : completions.dropWhile fun p => decide (regions.length < p.tryDepth) with
    | nil =>
      rw [hcase] at hp
      cases hp
    | cons q rest =>
      have hq := List.head_dropWhile_not (l := completions)
        (fun p => decide (regions.length < p.tryDepth)) (by rw [hcase]; nofun)
      simp only [hcase, List.head_cons, decide_eq_false_iff_not, not_lt] at hq
      have hlinked := hfits.linked q (by rw [hcase]; exact List.mem_cons_self) [] region regions rfl hq
      have horder := hfits.completionOrder
      rw [hcase] at hp horder
      rcases List.mem_cons.1 hp with rfl | hmem
      · exact hlinked
      · exact ((List.pairwise_cons.1 horder).1 p hmem).trans hlinked

/-- Every completion belongs to a call. -/
theorem dropWhile_eq_nil (h : Fits limit depth regions completions) :
    (completions.dropWhile fun p => decide (0 < p.frameDepth)) = [] := by
  rw [List.dropWhile_eq_nil_iff]
  intro p hp
  have hpositive := (h.completionDepth p hp).1
  rw [decide_eq_true_eq]
  omega

end Fits

theorem length_resumeAt {frames : List Frame} {depth : Nat} (hle : depth ≤ frames.length)
    (ip : Nat) : (resumeAt frames depth ip).length = depth := by
  unfold resumeAt
  rw [List.length_modifyHead, List.length_drop]
  omega

namespace Machine

variable {host : Host} {m m' : Machine} {f : Frame} {rest : List Frame} {v e : Value}
  {cs : List Pending}

/-- The regions and completions of the machine fit its calls. -/
def Coherent (m : Machine) : Prop :=
  Fits m.settings.maxTryDepth m.frames.length m.regions m.completions

theorem Coherent.fits (h : m.Coherent) {regions : List Region} (hregions : m.regions = regions)
    (hcs : cs <:+ m.completions) : Fits m.settings.maxTryDepth m.frames.length regions cs :=
  hregions ▸ Fits.suffix h hcs

theorem Coherent.nested (h : m.Coherent) : m.Nested := ⟨h.regionOrder, h.regionDepth⟩

theorem Returning.suffix (h : m.Returning f v cs) : cs <:+ m.completions := by
  cases h with
  | ret => exact List.suffix_refl _
  | atEnd => exact List.suffix_refl _
  | resumed _ hcompletions => exact hcompletions ▸ List.suffix_cons _ _

theorem Throwing.suffix (h : Throwing host m f e cs) : cs <:+ m.completions := by
  cases h with
  | raised => exact List.suffix_refl _
  | rethrown _ hcompletions => exact hcompletions ▸ List.suffix_cons _ _

/-- The regions that are left when a call is over belong to its callers. -/
theorem Coherent.depth_lt_of_left {gone older : List Region} (h : m.Coherent)
    (hregions : m.regions = gone ++ older)
    (holder : ∀ r ∈ older.head?, r.frameDepth ≠ m.frames.length) :
    ∀ r ∈ older, r.frameDepth < m.frames.length := by
  have hleft := (h.fits hregions (List.suffix_refl _)).leave
  cases older with
  | nil => nofun
  | cons region older =>
    have hregion : region.frameDepth ≠ m.frames.length := holder region rfl
    have hbound := (hleft.regionDepth region List.mem_cons_self).2
    intro r hr
    rcases List.mem_cons.1 hr with rfl | hmem
    · omega
    · have hbelow := (List.pairwise_cons.1 hleft.regionOrder).1 r hmem
      omega

/-- What a quiet change of a machine with a call under way leaves alone. -/
theorem Quiet.undisturbed_atOffset (hdiscreet : host.Discreet) (hframes : m.frames = f :: rest)
    {ip : Nat} (hquiet : Quiet host (m.atOffset ip) m') : (m.atOffset ip).Undisturbed m' :=
  hquiet.undisturbed hdiscreet (settled_of_frames (frames_atOffset hframes ip))

theorem Called.undisturbed_atOffset (hdiscreet : host.Discreet) (hframes : m.frames = f :: rest)
    {ip base : Nat} (hcalled : Called host base (m.atOffset ip) m') :
    ∃ q r proto, (m.atOffset ip).Undisturbed q ∧
      m' = { q with frames := { closure := r, proto, base } :: q.frames } := by
  obtain ⟨q, r, proto, hquiet, rfl⟩ := hcalled.exists_quiet
  exact ⟨q, r, proto, hquiet.undisturbed_atOffset hdiscreet hframes, rfl⟩

theorem Undisturbed.coherent (h : m.Undisturbed m') (hm : m.Coherent) : m'.Coherent := by
  unfold Coherent
  rw [h.settings, h.frames, h.regions, h.completions]
  exact hm

theorem Coherent.atOffset (h : m.Coherent) (ip : Nat) : (m.atOffset ip).Coherent := by
  unfold Coherent
  rw [length_frames_atOffset]
  exact h

theorem one_le_length {f : Frame} {rest : List Frame} (hframes : m.frames = f :: rest) :
    1 ≤ m.frames.length := by
  rw [hframes, List.length_cons]
  omega

/-- A turn keeps the regions and the completions fitting. -/
theorem Turn.coherent (hdiscreet : host.Discreet) (hturn : Turn host m m') (hm : m.Coherent) :
    m'.Coherent := by
  cases hturn with
  | goes hframes _ hquiet =>
    exact (hquiet.undisturbed_atOffset hdiscreet hframes).coherent (hm.atOffset _)
  | makes hframes _ _ _ hquiet =>
    exact (hquiet.undisturbed_atOffset hdiscreet hframes).coherent (hm.atOffset _)
  | calls hframes _ _ hcalled =>
    obtain ⟨q, r, proto, hleft, rfl⟩ := hcalled.undisturbed_atOffset hdiscreet hframes
    exact (hleft.coherent (hm.atOffset _)).deepen
  | enters hframes _ _ _ hregion hfew =>
    have hentered := hm.enter (one_le_length hframes) hregion.2.2 hfew
    show Fits _ (m.atOffset _).frames.length _ _
    rw [length_frames_atOffset]
    exact hentered
  | @pops f _ region older hframes _ hregions =>
    have hone : m.regions = [region] ++ older := hregions
    have hfits := hm.fits hone (List.suffix_refl _)
    show Fits _ (resumeAt _ _ _).length _ _
    rw [length_resumeAt (le_refl _)]
    exact hfits.leave.pend (one_le_length hframes) _
  | @resumes f _ p cs ip stack hframes _ hcompletions =>
    have hfits := hm.fits rfl (hcompletions ▸ List.suffix_cons p cs)
    show Fits _ (m.atOffset _).frames.length _ _
    rw [length_frames_atOffset]
    exact hfits
  | @returns f _ v cs gone older region ip block q hframes hreturning hregions _ _ _ hquiet =>
    have hleft := hquiet.undisturbed_atOffset hdiscreet hframes
    have hthrough : m.regions = (gone ++ [region]) ++ older := by
      rw [hregions, List.append_assoc, List.singleton_append]
    have hfits := hm.fits hthrough hreturning.suffix
    show Fits q.settings.maxTryDepth (resumeAt _ _ _).length _ _
    rw [length_resumeAt (le_refl _), hleft.settings]
    exact hfits.leave.pend (one_le_length hframes) _
  | @leaves f rest v cs gone older ip q hframes _ hreturning hregions _ holder hquiet =>
    have hleft := hquiet.undisturbed_atOffset hdiscreet hframes
    have hlength : m.frames.length = rest.length + 1 := by rw [hframes, List.length_cons]
    have hfits := hm.fits hregions hreturning.suffix
    rw [hlength] at hfits
    have hbelow := hm.depth_lt_of_left hregions holder
    show Fits q.settings.maxTryDepth rest.length _ _
    rw [hleft.settings]
    exact hfits.leave.shallower fun r hr => by have := hbelow r hr; omega
  | @throws f _ e cs gone older region ip target c q hframes hthrowing hregions _ hquiet _ =>
    have hleft := hquiet.undisturbed_atOffset hdiscreet hframes
    have hfits := hm.fits hregions hthrowing.suffix
    have hbounds := hfits.regionDepth region (List.mem_append_right gone List.mem_cons_self)
    show Fits q.settings.maxTryDepth (resumeAt _ _ _).length _ _
    rw [length_resumeAt hbounds.2, hleft.settings]
    exact hfits.unwind.pend hbounds.1 _

end Machine

end ScriptMachine
