import ScriptMachine.Proofs.Heap.Growth
import ScriptMachine.Proofs.Machine.Collection

/-!
Births of references. Each value put into a slot gets a stamp of its own, and each held reference
keeps the stamp that its slot had when the reference was created, for as long as it is held. A
machine is live if every held reference leads to an occupied slot that still has that stamp: what
the reference was created for was never released, and nothing else has taken its place.
-/

namespace ScriptMachine

instance (h : Heap) (r : Ref) : Decidable (h.Occupied r) := by
  cases r <;> (unfold Heap.Occupied; infer_instance)

namespace Machine

/-- A reference is held by the machine itself, by an object, or by a constant of a call under
way. -/
inductive Held (m : Machine) (r : Ref) : Prop where
  | root (hr : m.IsRoot r)
  | object {s : Ref} {o : Object} (hs : m.heap.get? s = some o) (hr : r ∈ o.refs)
  | constant {f : Frame} (hf : f ∈ m.frames) {v : Value} (hv : v ∈ f.proto.blob.constants)
      (hr : r ∈ v.refs)

/-- What a machine itself holds is what a collection starts from. -/
theorem held_iff {m : Machine} {r : Ref} : m.Held r ↔
    r ∈ m.roots ∨ (∃ s o, m.heap.get? s = some o ∧ r ∈ o.refs) ∨
      ∃ f ∈ m.frames, ∃ v ∈ f.proto.blob.constants, r ∈ v.refs := by
  rw [← isRoot_iff]
  constructor
  · rintro (hr | ⟨hs, hr⟩ | ⟨hf, hv, hr⟩)
    · exact Or.inl hr
    · exact Or.inr (Or.inl ⟨_, _, hs, hr⟩)
    · exact Or.inr (Or.inr ⟨_, hf, _, hv, hr⟩)
  · rintro (hr | ⟨s, o, hs, hr⟩ | ⟨f, hf, v, hv, hr⟩)
    · exact .root hr
    · exact .object hs hr
    · exact .constant hf hv hr

/-- What a machine keeps between any two actions. A closure goes with the function it was made of,
and a call under way with its closure. -/
structure Sound (m : Machine) : Prop where
  heap : m.heap.WellFormed
  rest : m.heap.AtRest
  occupied : ∀ r, m.Held r → m.heap.Occupied r
  closures : ∀ r c, m.heap.get? r = some (.closure c) →
    m.heap.get? c.function = some (.function c.proto)
  frames : ∀ f ∈ m.frames, ∃ c, m.heap.get? f.closure = some (.closure c) ∧ c.proto = f.proto

/-- The stamps of the slots, and those of the held references at their creation. -/
structure Births where
  next : Nat
  stamp : Ref → Nat
  born : Ref → Nat → Prop

namespace Births

/-- What a new machine holds is as old as the machine. -/
def initial (m : Machine) : Births where
  next := 1
  stamp _ := 0
  born r n := m.Held r ∧ n = 0

/-- What is put into a slot that was vacant gets a new stamp. -/
def restamp (g : Births) (m : Machine) (r : Ref) : Nat :=
  if m.heap.Occupied r then g.stamp r else g.next

/-- The births after a machine went from `m` to `m'` without both releasing and storing anything,
where the references in `handed` were handed out. A reference that is held no longer is forgotten. -/
def after (g : Births) (m : Machine) (handed : List Ref) (m' : Machine) : Births where
  next := g.next + 1
  stamp := g.restamp m
  born r n := m'.Held r ∧ (g.born r n ∨ r ∈ handed ∧ n = g.restamp m r)

end Births

/-- Every held reference leads to what it was created for. -/
structure Live (m : Machine) (g : Births) : Prop where
  occupied : ∀ r, m.Held r → m.heap.Occupied r
  born : ∀ r, m.Held r → ∃ n, g.born r n
  held : ∀ r n, g.born r n → m.Held r
  same : ∀ r n, g.born r n → g.stamp r = n

theorem live_initial {m : Machine} (h : m.Sound) : Live m (.initial m) where
  occupied := h.occupied
  born _ hr := ⟨0, hr, rfl⟩
  held _ _ hn := hn.1
  same _ _ hn := hn.2.symm

/-- A machine stays live if it holds nothing but what it held before and what was handed out. -/
theorem Live.after {m m' : Machine} {g : Births} (h : Live m g) {handed : List Ref}
    (hoccupied : ∀ r, m'.Held r → m'.heap.Occupied r)
    (hheld : ∀ r, m'.Held r → m.Held r ∨ r ∈ handed) : Live m' (g.after m handed m') where
  occupied := hoccupied
  born r hr := by
    rcases hheld r hr with hold | hnew
    · obtain ⟨n, hn⟩ := h.born r hold
      exact ⟨n, hr, Or.inl hn⟩
    · exact ⟨g.restamp m r, hr, Or.inr ⟨hnew, rfl⟩⟩
  held _ _ hn := hn.1
  same r n hn := by
    rcases hn.2 with hold | ⟨-, rfl⟩
    · have hocc := h.occupied r (h.held r n hold)
      have hstamp : g.restamp m r = g.stamp r := if_pos hocc
      exact hstamp.trans (h.same r n hold)
    · rfl

/-- The constants of a call under way are held by the function of its closure. -/
theorem Sound.constant_held {m : Machine} (h : m.Sound) {f : Frame} (hf : f ∈ m.frames) {v : Value}
    (hv : v ∈ f.proto.blob.constants) {r : Ref} (hr : r ∈ v.refs) :
    ∃ c, m.heap.get? f.closure = some (.closure c) ∧
      m.heap.get? c.function = some (.function f.proto) ∧ r ∈ (Object.function f.proto).refs := by
  obtain ⟨c, hc, hproto⟩ := h.frames f hf
  refine ⟨c, hc, by rw [h.closures _ c hc, hproto], ?_⟩
  exact List.mem_flatMap.2 ⟨v, Array.mem_toList_iff.2 hv, hr⟩

theorem closure_mem_roots {m : Machine} {f : Frame} (hf : f ∈ m.frames) : f.closure ∈ m.roots :=
  mem_roots_iff.2 (Or.inr (Or.inl ⟨f, hf, rfl⟩))

end Machine

namespace Heap

variable {before after : Heap} {kept : Ref → Prop} {released : Released}

theorem Collected.get?_iff (h : Collected before kept released after) {s : Ref} {o : Object} :
    after.get? s = some o ↔ before.get? s = some o ∧ kept s := by
  cases s with
  | object i => exact h.objects i o
  | text i => simp [Heap.get?]

theorem Collected.occupied_iff (h : Collected before kept released after) {r : Ref} :
    after.Occupied r ↔ before.Occupied r ∧ kept r := by
  cases r with
  | object i =>
    simp only [Occupied, Option.isSome_iff_exists, h.objects i, exists_and_right]
  | text i =>
    simp only [Occupied, Option.isSome_iff_exists, h.texts i, exists_and_right]

end Heap

namespace Machine

/-- Everything that a machine still holds after a collection it could reach before. -/
theorem Sound.held_collect {m : Machine} (h : m.Sound) {r : Ref} (hr : m.collect.2.Held r) :
    m.Held r ∧ Heap.Reachable m.heap m.roots r := by
  have hcollected := h.rest.collected m.roots
  rcases held_iff.1 hr with hroot | ⟨s, o, hs, hmem⟩ | ⟨f, hf, v, hv, hmem⟩
  · exact ⟨held_iff.2 (Or.inl hroot), .root hroot⟩
  · obtain ⟨hold, hreach⟩ := hcollected.get?_iff.1 hs
    exact ⟨.object hold hmem, hreach.step hold hmem⟩
  · obtain ⟨c, hc, hfunction, hconstant⟩ := h.constant_held hf hv hmem
    have hclosure : Heap.Reachable m.heap m.roots f.closure := .root (closure_mem_roots hf)
    refine ⟨.constant hf hv hmem, ?_⟩
    exact (hclosure.step hc List.mem_cons_self).step hfunction hconstant

theorem Sound.collect {m : Machine} (h : m.Sound) : m.collect.2.Sound := by
  have hcollected := h.rest.collected m.roots
  refine ⟨h.heap.collect m.roots, hcollected.rest, ?_, ?_, ?_⟩
  · intro r hr
    obtain ⟨hheld, hreach⟩ := h.held_collect hr
    exact hcollected.occupied_iff.2 ⟨h.occupied r hheld, hreach⟩
  · intro r c hc
    obtain ⟨hold, hreach⟩ := hcollected.get?_iff.1 hc
    have hfunction := h.closures r c hold
    exact hcollected.get?_iff.2 ⟨hfunction, hreach.step hold List.mem_cons_self⟩
  · intro f hf
    obtain ⟨c, hc, hproto⟩ := h.frames f hf
    exact ⟨c, hcollected.get?_iff.2 ⟨hc, .root (closure_mem_roots hf)⟩, hproto⟩

theorem Live.collect {m : Machine} {g : Births} (h : Live m g) (hsound : m.Sound) :
    Live m.collect.2 (g.after m [] m.collect.2) :=
  h.after hsound.collect.occupied fun _ hr => Or.inl (hsound.held_collect hr).1

end Machine

end ScriptMachine
