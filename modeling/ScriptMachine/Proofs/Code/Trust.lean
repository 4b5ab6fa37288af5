import ScriptMachine.Proofs.Code.Persistence
import ScriptMachine.Proofs.Machine.Runs

/-!
Trusted machines. Every closure goes with its function, whose stream the check has accepted, and
every call under way goes with its closure. Quiet changes and collections keep this, and the
streams of the calls decode to the same instructions before and after, provided that natives make
no closures but trusted ones and leave alone what is fixed.
-/

namespace ScriptMachine

/-- A closure goes with its function, whose stream the check has accepted. -/
def Heap.Trusts (h : Heap) (c : Closure) : Prop :=
  h.get? c.function = some (.function c.proto) ∧ h.Accepted c.proto.blob

theorem Heap.Trusts.persist {h h' : Heap} {keep : Ref → Prop} {c : Closure} (hc : h.Trusts c)
    (hp : Persists keep h h') (hkeep : keep c.function)
    (hneeds : ∀ r, h.Needs c.proto.blob r → keep r) : h'.Trusts c :=
  ⟨hp.fixed _ _ hkeep hc.1 rfl, hc.2.persist hp hneeds⟩

namespace Machine

/-- The closures are trusted, and a call under way goes with its closure. -/
structure Trusted (m : Machine) : Prop where
  heap : m.heap.WellFormed
  rest : m.heap.AtRest
  closures : ∀ r c, m.heap.get? r = some (.closure c) → m.heap.Trusts c
  frames : ∀ f ∈ m.frames, ∃ c, m.heap.get? f.closure = some (.closure c) ∧ c.proto = f.proto

/-- What a machine becomes while its calls stay and its closures are trusted. -/
inductive Tends (m : Machine) : Machine → Prop where
  | refl : Tends m m
  /-- The heap and the calls stay. -/
  | other {m' m'' : Machine} (htends : Tends m m') (hheap : m''.heap = m'.heap)
      (hframes : m''.frames = m'.frames) : Tends m m''
  | alloc {m' : Machine} (htends : Tends m m') (o : Object)
      (htrusts : ∀ c, o = .closure c → m'.heap.Trusts c) : Tends m (m'.alloc o).2
  | intern {m' : Machine} (htends : Tends m m') (text : String) : Tends m (m'.intern text).2
  | update {m' : Machine} (htends : Tends m m') (r : Ref) (f : Object → Object)
      (hfixed : ∀ o, m'.heap.get? r = some o →
        f o = o ∨ o.isFixed = false ∧ (f o).isFixed = false) : Tends m (m'.update r f)
  | collect {m' : Machine} (htends : Tends m m') : Tends m m'.collect.2

end Machine

/-- Natives called by a running call make no closures but trusted ones, and leave the calls and what
is fixed alone. -/
def Host.Modest (host : Host) : Prop :=
  ∀ name receiver args (m : Machine), m.frames ≠ [] → m.Tends (host name receiver args m).2

theorem Host.modest_idle : Host.idle.Modest := fun _ _ _ _ _ => .refl

namespace Machine

variable {host : Host} {m m' : Machine}

theorem Trusted.accepted (hm : m.Trusted) {f : Frame} (hf : f ∈ m.frames) :
    m.heap.Accepted f.proto.blob := by
  obtain ⟨c, hc, hproto⟩ := hm.frames f hf
  rw [← hproto]
  exact (hm.closures _ c hc).2

theorem Trusted.of_frames (hm : m.Trusted) (hheap : m'.heap = m.heap)
    (hframes : ∀ f ∈ m'.frames, ∃ g ∈ m.frames, g.closure = f.closure ∧ g.proto = f.proto) :
    m'.Trusted := by
  refine ⟨hheap ▸ hm.heap, hheap ▸ hm.rest, hheap ▸ hm.closures, fun f hf => ?_⟩
  obtain ⟨g, hg, hclosure, hproto⟩ := hframes f hf
  rw [hheap, ← hclosure, ← hproto]
  exact hm.frames g hg

/-- The machine is trusted, and its calls are those of another machine, with all that their streams
need. -/
structure Steady (m m' : Machine) : Prop where
  trusted : m'.Trusted
  frames : m'.frames = m.frames
  needs : ∀ f ∈ m.frames, Persists (m.heap.Needs f.proto.blob) m.heap m'.heap

theorem Steady.refl (hm : m.Trusted) : m.Steady m :=
  ⟨hm, rfl, fun _ _ => ⟨fun _ _ _ ho _ => ho, fun _ _ _ hx => hx⟩⟩

theorem Steady.trans {m'' : Machine} (h : m.Steady m') (h' : m'.Steady m'') : m.Steady m'' where
  trusted := h'.trusted
  frames := h'.frames.trans h.frames
  needs f hf :=
    (h.needs f hf).trans (h'.needs f (h.frames ▸ hf)) fun _ hr => hr.persist (h.needs f hf)

/-- The streams of the calls decode as before. -/
theorem Steady.code (h : m.Steady m') (hm : m.Trusted) {f : Frame} (hf : f ∈ m.frames) :
    m'.heap.code f.proto.blob = m.heap.code f.proto.blob :=
  (hm.accepted hf).code_eq (h.needs f hf) fun _ hr => hr

/-! Single changes of a trusted machine. -/

theorem Trusted.grow (hm : m.Trusted) {heap : Heap} (hwf : heap.WellFormed) (hrest : heap.AtRest)
    (hendures : Endures m.heap heap)
    (hclosures : ∀ r c, heap.get? r = some (.closure c) →
      m.heap.get? r = some (.closure c) ∨ m.heap.Trusts c) : m.Steady { m with heap } where
  trusted := by
    have htrusts {c : Closure} (hc : m.heap.Trusts c) : heap.Trusts c :=
      hc.persist hendures trivial fun _ _ => trivial
    refine ⟨hwf, hrest, fun r c hc => ?_, fun f hf => ?_⟩
    · rcases hclosures r c hc with hold | hnew
      · exact htrusts (hm.closures r c hold)
      · exact htrusts hnew
    · obtain ⟨c, hc, hproto⟩ := hm.frames f hf
      exact ⟨c, hendures.fixed _ _ trivial hc rfl, hproto⟩
  frames := rfl
  needs _ _ := hendures.mono fun _ _ => trivial

theorem Trusted.alloc (hm : m.Trusted) {o : Object}
    (htrusts : ∀ c, o = .closure c → m.heap.Trusts c) : m.Steady (m.alloc o).2 := by
  refine hm.grow (hm.heap.alloc o) (hm.rest.alloc hm.heap o) (endures_alloc hm.heap o) ?_
  intro r c hc
  have hget := (Heap.get?_alloc hm.heap o r).symm.trans hc
  by_cases hr : r = (m.heap.alloc o).1
  · rw [if_pos hr] at hget
    exact Or.inr (htrusts c (Option.some.inj hget))
  · rw [if_neg hr] at hget
    exact Or.inl hget

theorem Trusted.intern (hm : m.Trusted) (text : String) : m.Steady (m.intern text).2 :=
  hm.grow (hm.heap.intern text) (hm.rest.intern hm.heap text) (endures_intern hm.heap text)
    fun _ _ hc => Or.inl hc

theorem Trusted.update (hm : m.Trusted) {r : Ref} {f : Object → Object}
    (hfixed : ∀ o, m.heap.get? r = some o →
      f o = o ∨ o.isFixed = false ∧ (f o).isFixed = false) : m.Steady (m.update r f) := by
  refine hm.grow (hm.heap.update r f) (hm.rest.update r f) (endures_update r f hfixed) ?_
  intro s c hc
  rw [Heap.get?_update] at hc
  by_cases hrs : r = s
  · rw [if_pos hrs] at hc
    obtain ⟨o, ho, hchanged⟩ := Option.map_eq_some_iff.1 hc
    subst hrs
    rcases hfixed o ho with hsame | ⟨-, hnot⟩
    · rw [hsame] at hchanged
      exact Or.inl (hchanged ▸ ho)
    · rw [hchanged] at hnot
      cases hnot
  · rw [if_neg hrs] at hc
    exact Or.inl hc

/-- A collection keeps what a closure needs with the closure. -/
theorem Trusted.collect (hm : m.Trusted) : m.Steady m.collect.2 := by
  have hcollected := hm.rest.collected m.roots
  have hp := persists_collected hcollected
  have hfunction {r : Ref} {c : Closure} (hr : m.heap.Reachable m.roots r)
      (hc : m.heap.get? r = some (.closure c)) : m.heap.Reachable m.roots c.function :=
    hr.step hc List.mem_cons_self
  have hneeds {r : Ref} {c : Closure} (hr : m.heap.Reachable m.roots r)
      (hc : m.heap.get? r = some (.closure c)) (s : Ref) (hs : m.heap.Needs c.proto.blob s) :
      m.heap.Reachable m.roots s :=
    hs.reachable (hfunction hr hc) (hm.closures r c hc).1
  refine ⟨⟨hm.heap.collect m.roots, hcollected.rest, ?_, ?_⟩, rfl, ?_⟩
  · intro r c hc
    obtain ⟨hold, hr⟩ := hcollected.get?_iff.1 hc
    exact (hm.closures r c hold).persist hp (hfunction hr hold) (hneeds hr hold)
  · intro f hf
    obtain ⟨c, hc, hproto⟩ := hm.frames f hf
    exact ⟨c, hp.fixed _ _ (.root (closure_mem_roots hf)) hc rfl, hproto⟩
  · intro f hf
    obtain ⟨c, hc, hproto⟩ := hm.frames f hf
    rw [← hproto]
    exact hp.mono (hneeds (.root (closure_mem_roots hf)) hc)

/-! Rows of changes. -/

theorem Tends.steady (htends : m.Tends m') (hm : m.Trusted) : m.Steady m' := by
  induction htends with
  | refl => exact .refl hm
  | other _ hheap hframes ih =>
    refine ⟨ih.trusted.of_frames hheap fun f hf => ⟨f, hframes ▸ hf, rfl, rfl⟩,
      hframes.trans ih.frames, fun f hf => ?_⟩
    rw [hheap]
    exact ih.needs f hf
  | alloc _ o htrusts ih => exact ih.trans (ih.trusted.alloc htrusts)
  | intern _ text ih => exact ih.trans (ih.trusted.intern text)
  | update _ r f hfixed ih => exact ih.trans (ih.trusted.update hfixed)
  | collect _ ih => exact ih.trans ih.trusted.collect

theorem Tends.trans {m'' : Machine} (h : m.Tends m') (h' : m'.Tends m'') : m.Tends m'' := by
  induction h' with
  | refl => exact h
  | other _ hheap hframes ih => exact ih.other hheap hframes
  | alloc _ o htrusts ih => exact ih.alloc o htrusts
  | intern _ text ih => exact ih.intern text
  | update _ r f hfixed ih => exact ih.update r f hfixed
  | collect _ ih => exact ih.collect

theorem tends_captureSlot (m : Machine) (slot : Nat) : m.Tends (m.captureSlot slot).2 := by
  unfold captureSlot
  dsimp only
  split
  · exact .refl
  · exact .other (.alloc .refl (.upvalue (.opened slot)) nofun) rfl rfl

theorem tends_closeCells (stack : Array Value) (start : Nat) (cells : List Ref) (m : Machine) :
    m.Tends { m with heap := (closeCells stack start cells m.heap).2 } := by
  induction cells generalizing m with
  | nil => exact .refl
  | cons r rest ih =>
    unfold closeCells
    cases hslot : m.heap.openSlot? r with
    | none => exact ih m
    | some slot =>
      dsimp only
      by_cases hlt : slot < start
      · rw [if_pos hlt]
        exact .refl
      · rw [if_neg hlt]
        have hclosed : m.Tends (m.update r fun _ => .upvalue (.closed (stack.getD slot .nil))) := by
          refine .update .refl r _ fun o ho => Or.inr ⟨?_, rfl⟩
          unfold Heap.openSlot? at hslot
          rw [ho] at hslot
          cases o with
          | upvalue u => rfl
          | _ => cases hslot
        exact hclosed.trans (ih _)

theorem Tends.frames_eq (htends : m.Tends m') : m'.frames = m.frames := by
  induction htends with
  | refl => rfl
  | other _ _ hframes ih => exact hframes.trans ih
  | _ => assumption

theorem Quiet.tends (hmodest : host.Modest) (hframes : m.frames ≠ []) (hquiet : Quiet host m m') :
    m.Tends m' := by
  induction hquiet with
  | refl => exact .refl
  | stack _ _ ih => exact ih.other rfl rfl
  | globals _ _ ih => exact ih.other rfl rfl
  | output _ _ ih => exact ih.other rfl rfl
  | alloc _ o hfixed ih =>
    refine ih.alloc o fun c hc => ?_
    rw [hc] at hfixed
    cases hfixed
  | intern _ text ih => exact ih.intern text
  | update _ r f hfixed ih => exact ih.update r f hfixed
  | capture _ slot _ ih => exact ih.trans (tends_captureSlot _ slot)
  | close _ start ih => exact (ih.trans (tends_closeCells _ start _ _)).other rfl rfl
  | @gave m' m'' _ name receiver v args hnative ih =>
    have hnext := hmodest name receiver args m' (ih.frames_eq ▸ hframes)
    rw [hnative] at hnext
    exact ih.trans hnext
  | @raised m' m'' _ name receiver args hnative ih =>
    have hnext := hmodest name receiver args m' (ih.frames_eq ▸ hframes)
    rw [hnative] at hnext
    exact (ih.trans hnext).other rfl rfl

theorem Trusted.collectIfDue (hm : m.Trusted) : m.Steady m.collectIfDue := by
  unfold Machine.collectIfDue
  split
  · exact hm.collect
  · exact .refl hm

end Machine

end ScriptMachine
