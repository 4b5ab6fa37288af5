import ScriptMachine.Proofs.Machine.Coherence

/-!
Addresses that fit the streams they are used in. Each call goes on at an offset of its own stream,
and regions and completions hold addresses for the call they belong to, which may be resumed much
later. A call belongs to its place counted from the outermost call, so an address stays good while
newer calls come and go.
-/

namespace ScriptMachine

/-- Where a completion lets its call go on. -/
def Completion.address? : Completion → Option Nat
  | resume offset => some offset
  | handle handler _ => some handler
  | _ => none

/-- The streams of the calls, the outermost first. -/
def streams (frames : List Frame) : List Blob := (frames.map fun f => f.proto.blob).reverse

/-- An address lands in the stream of the call at a depth. -/
def Aims (lands : Blob → Nat → Prop) (frames : List Frame) (depth address : Nat) : Prop :=
  ∀ blob, (streams frames)[depth - 1]? = some blob → lands blob address

/-- All calls are where instructions begin, and so are all addresses of regions and completions. -/
structure Aligned (lands : Blob → Nat → Prop) (frames : List Frame) (regions : List Region)
    (completions : List Pending) : Prop where
  calls : ∀ f ∈ frames, lands f.proto.blob f.ip
  regions : ∀ r ∈ regions, ∀ a, r.handler? = some a ∨ r.finally? = some a →
    Aims lands frames r.frameDepth a
  completions : ∀ p ∈ completions, ∀ a, p.completion.address? = some a →
    Aims lands frames p.frameDepth a

variable {lands lands' : Blob → Nat → Prop} {frames frames' rest : List Frame} {f g : Frame}
  {depth target a : Nat} {regions regions' : List Region} {cs cs' : List Pending}

theorem streams_cons (f : Frame) (rest : List Frame) :
    streams (f :: rest) = streams rest ++ [f.proto.blob] := by
  unfold streams
  rw [List.map_cons, List.reverse_cons]

theorem length_streams (frames : List Frame) : (streams frames).length = frames.length := by
  unfold streams
  rw [List.length_reverse, List.length_map]

theorem prefix_streams_drop (frames : List Frame) (k : Nat) :
    streams (frames.drop k) <+: streams frames := by
  unfold streams
  rw [List.map_drop, List.reverse_drop]
  exact List.take_prefix _ _

theorem streams_resumeAt (frames : List Frame) (depth ip : Nat) :
    streams (resumeAt frames depth ip) = streams (frames.drop (frames.length - depth)) := by
  unfold resumeAt streams
  cases frames.drop (frames.length - depth) <;> rfl

theorem prefix_streams_resumeAt (frames : List Frame) (depth ip : Nat) :
    streams (resumeAt frames depth ip) <+: streams frames := by
  rw [streams_resumeAt]
  exact prefix_streams_drop frames _

theorem exists_of_mem_resumeAt {ip : Nat} (hg : g ∈ resumeAt frames depth ip) :
    ∃ f ∈ frames, f.closure = g.closure ∧ f.proto = g.proto := by
  unfold resumeAt at hg
  have hkept (f : Frame) (hf : f ∈ frames.drop (frames.length - depth)) : f ∈ frames :=
    List.mem_of_mem_drop hf
  cases hdrop : frames.drop (frames.length - depth) with
  | nil =>
    rw [hdrop] at hg
    cases hg
  | cons f older =>
    rw [hdrop] at hg hkept
    rcases List.mem_cons.1 hg with rfl | hmem
    · exact ⟨f, hkept f List.mem_cons_self, rfl, rfl⟩
    · exact ⟨g, hkept g (List.mem_cons_of_mem f hmem), rfl, rfl⟩

/-! Where a throw stops. -/

theorem Machine.Stops.target_of {h : Heap} {region : Region} {e : Value} {c : Option Completion}
    (hstops : Machine.Stops h region e target c) :
    region.handler? = some target ∨ region.finally? = some target := by
  cases hstops with
  | caught _ hhandler _ => exact Or.inl hhandler
  | held _ _ hfinally => exact Or.inr hfinally
  | passing _ hfinally => exact Or.inr hfinally

theorem Machine.Stops.address_of {h : Heap} {region : Region} {e : Value} {completion : Completion}
    (hstops : Machine.Stops h region e target (some completion))
    (ha : completion.address? = some a) : region.handler? = some a := by
  cases hstops with
  | held _ hhandler _ => exact Option.some.inj ha ▸ hhandler
  | passing => cases ha

namespace Aims

theorem outer (h : Aims lands frames depth a) (houter : streams frames' <+: streams frames) :
    Aims lands frames' depth a := by
  intro blob hblob
  obtain ⟨newer, hnewer⟩ := houter
  refine h blob ?_
  obtain ⟨hlt, -⟩ := List.getElem?_eq_some_iff.1 hblob
  rw [← hnewer, List.getElem?_append_left hlt]
  exact hblob

/-- A newer call does not matter. -/
theorem cons (h : Aims lands rest depth a) (hdepth : 1 ≤ depth ∧ depth ≤ rest.length) :
    Aims lands (f :: rest) depth a := by
  intro blob hblob
  have hlength := length_streams rest
  rw [streams_cons, List.getElem?_append_left (by omega)] at hblob
  exact h blob hblob

theorem innermost_iff (hframes : frames = f :: rest) :
    Aims lands frames frames.length a ↔ lands f.proto.blob a := by
  unfold Aims
  rw [hframes, streams_cons, List.length_cons, Nat.add_sub_cancel, ← length_streams rest,
    List.getElem?_append_right (le_refl _), Nat.sub_self]
  simp

/-- The call that is resumed at an address. -/
theorem resumed (h : Aims lands frames depth a) (hpos : 1 ≤ depth) (hle : depth ≤ frames.length)
    {older : List Frame} (hdrop : frames.drop (frames.length - depth) = g :: older) :
    lands g.proto.blob a := by
  have hlength : (g :: older).length = depth := by
    rw [← hdrop, List.length_drop]
    omega
  have hleft := h.outer (prefix_streams_drop frames (frames.length - depth))
  rw [hdrop, ← hlength] at hleft
  exact (innermost_iff rfl).1 hleft

end Aims

namespace Aligned

theorem mono (h : Aligned lands frames regions cs)
    (hlands : ∀ f ∈ frames, ∀ a, lands f.proto.blob a → lands' f.proto.blob a) :
    Aligned lands' frames regions cs := by
  have haims {depth a : Nat} (h : Aims lands frames depth a) : Aims lands' frames depth a := by
    intro blob hblob
    have hmem := List.mem_of_getElem? hblob
    unfold streams at hmem
    obtain ⟨f, hf, rfl⟩ := List.mem_map.1 (List.mem_reverse.1 hmem)
    exact hlands f hf a (h _ hblob)
  exact ⟨fun f hf => hlands f hf _ (h.calls f hf), fun r hr a ha => haims (h.regions r hr a ha),
    fun p hp a ha => haims (h.completions p hp a ha)⟩

theorem shrink (h : Aligned lands frames regions cs) (hregions : regions' ⊆ regions)
    (hcs : cs' ⊆ cs) : Aligned lands frames regions' cs' :=
  ⟨h.calls, fun r hr => h.regions r (hregions hr), fun p hp => h.completions p (hcs hp)⟩

/-- Calls are left. -/
theorem drop (h : Aligned lands frames regions cs) (k : Nat) :
    Aligned lands (frames.drop k) regions cs :=
  have houter := prefix_streams_drop frames k
  ⟨fun f hf => h.calls f (List.mem_of_mem_drop hf),
    fun r hr a ha => (h.regions r hr a ha).outer houter,
    fun p hp a ha => (h.completions p hp a ha).outer houter⟩

/-- Calls are left, and the next one goes on at an address of its own. -/
theorem resume (h : Aligned lands frames regions cs) (hpos : 1 ≤ depth)
    (hle : depth ≤ frames.length) (haims : Aims lands frames depth target) :
    Aligned lands (resumeAt frames depth target) regions cs := by
  have hsame := streams_resumeAt frames depth target
  have hleft := h.drop (frames.length - depth)
  refine ⟨fun f hf => ?_, fun r hr a ha => ?_, fun p hp a ha => ?_⟩
  · unfold resumeAt at hf
    cases hdrop : frames.drop (frames.length - depth) with
    | nil =>
      rw [hdrop] at hf
      cases hf
    | cons g older =>
      have hlands := haims.resumed hpos hle hdrop
      rw [hdrop] at hf hleft
      rcases List.mem_cons.1 hf with rfl | hmem
      · exact hlands
      · exact hleft.calls f (List.mem_cons_of_mem g hmem)
  · exact (hleft.regions r hr a ha).outer (hsame ▸ List.prefix_refl _)
  · exact (hleft.completions p hp a ha).outer (hsame ▸ List.prefix_refl _)

/-- A call begins. -/
theorem call {limit : Nat} (h : Aligned lands frames regions cs)
    (hfits : Fits limit frames.length regions cs) (hstart : lands f.proto.blob f.ip) :
    Aligned lands (f :: frames) regions cs := by
  refine ⟨fun g hg => ?_, fun r hr a ha => ?_, fun p hp a ha => ?_⟩
  · rcases List.mem_cons.1 hg with rfl | hmem
    · exact hstart
    · exact h.calls g hmem
  · exact (h.regions r hr a ha).cons (hfits.regionDepth r hr)
  · exact (h.completions p hp a ha).cons (hfits.completionDepth p hp)

theorem enter (h : Aligned lands frames regions cs) {region : Region}
    (hregion : ∀ a, region.handler? = some a ∨ region.finally? = some a →
      Aims lands frames region.frameDepth a) : Aligned lands frames (region :: regions) cs := by
  refine ⟨h.calls, fun r hr a ha => ?_, h.completions⟩
  rcases List.mem_cons.1 hr with rfl | hmem
  · exact hregion a ha
  · exact h.regions r hmem a ha

/-- A completion is pushed. -/
theorem pend (h : Aligned lands frames regions cs) {c : Option Completion}
    (hc : ∀ completion a, c = some completion → completion.address? = some a →
      Aims lands frames depth a) (older : List Region) :
    Aligned lands frames regions (Machine.pendings older depth c ++ cs) := by
  refine ⟨h.calls, h.regions, fun p hp a ha => ?_⟩
  rcases List.mem_append.1 hp with hnew | hold
  · cases c with
    | none => cases hnew
    | some completion =>
      obtain rfl := List.mem_singleton.1 hnew
      exact hc completion a rfl ha
  · exact h.completions p hold a ha

/-- Calls are left, and the next one goes on, perhaps in a finally block. -/
theorem begin (h : Aligned lands frames regions cs) (hpos : 1 ≤ depth)
    (hle : depth ≤ frames.length) (haims : Aims lands frames depth target) {c : Option Completion}
    (hc : ∀ completion a, c = some completion → completion.address? = some a →
      Aims lands frames depth a) (older : List Region) :
    Aligned lands (resumeAt frames depth target) regions (Machine.pendings older depth c ++ cs) :=
  (h.resume hpos hle haims).pend (fun completion a hsome ha =>
    (hc completion a hsome ha).outer (prefix_streams_resumeAt frames depth target)) older

end Aligned

end ScriptMachine
