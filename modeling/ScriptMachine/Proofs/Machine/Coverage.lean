import ScriptMachine.Proofs.Machine.Kempt
import ScriptMachine.Proofs.Machine.Knowledge

/-!
A world covers a machine if every object and every other part of the machine refers to what is
known only. A covered machine is sound and live, and kempt if the stretch began so.
-/

namespace ScriptMachine

/-- Functions and closures never change. -/
def Object.isCode : Object → Bool
  | function _ => true
  | closure _ => true
  | _ => false

namespace Machine.World

variable {w w' : World}

/-- The heap holds what is known only. -/
structure Holds (w : World) (h : Heap) : Prop where
  start : w.stretch.start.Sound
  live : Live w.stretch.start w.stretch.births
  passed : ∀ r ∈ w.stretch.passed, w.stretch.start.heap.Occupied r
  grows : w.stretch.start.heap.Grows w.created h
  rest : h.AtRest
  objects : ∀ s o, h.get? s = some o → w.Knows o
  code : ∀ r o, w.code r o ↔ o.isCode = true ∧ h.get? r = some o
  paired : ∀ r c, w.code r (.closure c) → w.code c.function (.function c.proto)

/-- The rest of the machine holds what is known only. -/
structure Backs (w : World) (m : Machine) : Prop where
  stack : ∀ v ∈ m.stack, w.Knows v
  frames : ∀ f ∈ m.frames, w.Has f.closure ∧ ∃ c, w.code f.closure (.closure c) ∧ c.proto = f.proto
  openUpvalues : ∀ r ∈ m.openUpvalues, w.Has r
  globals : w.Knows m.globals
  regions : ∀ g ∈ m.regions, w.Knows g.filter?
  completions : ∀ p ∈ m.completions, w.Knows p.completion.value?
  raised : w.Knows m.raised?
  exceptions : ∀ k, w.Has (m.builtins.exception k)
  primitives : ∀ p, w.Has (m.builtins.primitive p)
  pinned : ∀ v ∈ m.pinned, w.Knows v
  message : w.Has m.builtins.message
  stacktrace : w.Has m.builtins.stacktrace
  kempt : w.stretch.start.Kempt → m.Kempt

/-- A change of the heap alone. -/
theorem Backs.withHeap {m : Machine} (h : w.Backs m) {heap : Heap}
    (hkempt : m.Kempt → Machine.Kempt { m with heap }) : w.Backs { m with heap } :=
  { h with kempt := fun hstart => hkempt (h.kempt hstart) }

structure Covers (w : World) (m : Machine) : Prop where
  heap : w.Holds m.heap
  state : w.Backs m

theorem Backs.mono {m : Machine} (h : w.Backs m) (hle : w ≤ w') : w'.Backs m where
  stack v hv := (h.stack v hv).mono hle
  frames f hf := by
    obtain ⟨hknown, c, hc, hproto⟩ := h.frames f hf
    exact ⟨hknown.mono hle, c, hle.code _ _ hc, hproto⟩
  openUpvalues r hr := (h.openUpvalues r hr).mono hle
  globals := h.globals.mono hle
  regions g hg := (h.regions g hg).mono hle
  completions p hp := (h.completions p hp).mono hle
  raised := h.raised.mono hle
  exceptions k := (h.exceptions k).mono hle
  primitives p := (h.primitives p).mono hle
  pinned v hv := (h.pinned v hv).mono hle
  message := h.message.mono hle
  stacktrace := h.stacktrace.mono hle
  kempt := hle.stretch ▸ h.kempt

/-! What the heap of a covered machine gives. -/

namespace Holds

variable {h : Heap}

theorem wellFormed (hh : w.Holds h) : h.WellFormed := (hh.grows.occupied_iff hh.start.heap).1

theorem occupied (hh : w.Holds h) {r : Ref} (hr : w.Has r) : h.Occupied r := by
  refine ((hh.grows.occupied_iff hh.start.heap).2 r).2 ?_
  rcases hr with hheld | hpassed | hcreated
  · exact Or.inl (hh.start.occupied r hheld)
  · exact Or.inl (hh.passed r hpassed)
  · exact Or.inr hcreated

/-- The constants of a function are known. -/
theorem constants (hh : w.Holds h) {r : Ref} {proto : Prototype}
    (hcode : w.code r (.function proto)) {v : Value} (hv : v ∈ proto.blob.constants) :
    w.Knows v := by
  intro s hs
  have hfunction := ((hh.code r _).1 hcode).2
  exact hh.objects r _ hfunction s (List.mem_flatMap.2 ⟨v, Array.mem_toList_iff.2 hv, hs⟩)

/-- A stored object is known from then on. -/
theorem alloc (hh : w.Holds h) {o : Object} (hrefs : w.Knows o)
    (hpaired : ∀ c, o = .closure c → w.code c.function (.function c.proto)) :
    ∃ w', w ≤ w' ∧ w'.Holds (h.alloc o).2 ∧ w'.Has (h.alloc o).1 ∧
      (o.isCode = true → w'.code (h.alloc o).1 o) := by
  let w' : World :=
    { w with
      created := (h.alloc o).1 :: w.created
      code := fun r o' => w.code r o' ∨ r = (h.alloc o).1 ∧ o' = o ∧ o.isCode = true }
  have hle : w ≤ w' := ⟨rfl, fun r hr => List.mem_cons_of_mem _ hr, fun r o' ho => Or.inl ho⟩
  have hget := Heap.get?_alloc hh.wellFormed o
  refine ⟨w', hle, ⟨hh.start, hh.live, hh.passed, hh.grows.alloc o,
    hh.rest.alloc hh.wellFormed o, ?_, ?_, ?_⟩, Or.inr (Or.inr List.mem_cons_self),
    fun hcode => Or.inr ⟨rfl, rfl, hcode⟩⟩
  · intro s o' ho' r hr
    rw [hget] at ho'
    by_cases hs : s = (h.alloc o).1
    · rw [if_pos hs] at ho'
      rw [← Option.some.inj ho'] at hr
      exact (hrefs r hr).mono hle
    · rw [if_neg hs] at ho'
      exact (hh.objects s o' ho' r hr).mono hle
  · intro r o'
    rw [hget]
    by_cases hr : r = (h.alloc o).1
    · rw [if_pos hr]
      constructor
      · rintro (hold | ⟨-, rfl, hcode⟩)
        · have hbefore := ((hh.code r o').1 hold).2
          exact absurd hr (Heap.ne_alloc_of_get? hh.wellFormed o hbefore)
        · exact ⟨hcode, rfl⟩
      · rintro ⟨hcode, ho'⟩
        obtain rfl := Option.some.inj ho'
        exact Or.inr ⟨hr, rfl, hcode⟩
    · rw [if_neg hr, ← hh.code r o']
      constructor
      · rintro (hold | ⟨hnew, -⟩)
        · exact hold
        · exact absurd hnew hr
      · exact Or.inl
  · rintro r c (hold | ⟨rfl, hc, -⟩)
    · exact Or.inl (hh.paired r c hold)
    · exact Or.inl (hpaired c hc.symm)

theorem intern (hh : w.Holds h) (text : String) :
    ∃ w', w ≤ w' ∧ w'.Holds (h.intern text).2 ∧ w'.Has (h.intern text).1 := by
  let w' : World := { w with created := (h.intern text).1 :: w.created }
  have hle : w ≤ w' := ⟨rfl, fun r hr => List.mem_cons_of_mem _ hr, fun _ _ ho => ho⟩
  refine ⟨w', hle, ⟨hh.start, hh.live, hh.passed, hh.grows.intern text,
    hh.rest.intern hh.wellFormed text, ?_, hh.code, hh.paired⟩, Or.inr (Or.inr List.mem_cons_self)⟩
  intro s o ho r hr
  exact (hh.objects s o ho r hr).mono hle

/-- A change that leaves functions and closures alone brings in what is known. -/
theorem update (hh : w.Holds h) {r : Ref} {f : Object → Object}
    (hrefs : ∀ o, h.get? r = some o → w.Knows (f o))
    (hcode : ∀ o, h.get? r = some o → f o = o ∨ o.isCode = false ∧ (f o).isCode = false) :
    w.Holds (h.update r f) := by
  refine ⟨hh.start, hh.live, hh.passed, hh.grows.update r f, hh.rest.update r f, ?_, ?_, hh.paired⟩
  · intro s o ho
    rw [Heap.get?_update] at ho
    by_cases hrs : r = s
    · rw [if_pos hrs, ← hrs] at ho
      obtain ⟨old, hold, rfl⟩ := Option.map_eq_some_iff.1 ho
      exact hrefs old hold
    · rw [if_neg hrs] at ho
      exact hh.objects s o ho
  · intro s o
    rw [hh.code, Heap.get?_update]
    by_cases hrs : r = s
    · subst hrs
      rw [if_pos rfl]
      cases hold : h.get? r with
      | none => simp
      | some old =>
        rcases hcode old hold with hsame | ⟨hbefore, hafter⟩
        · rw [Option.map_some, hsame]
        · simp only [Option.map_some, Option.some.injEq]
          constructor
          · rintro ⟨hisCode, rfl⟩
            rw [hbefore] at hisCode
            cases hisCode
          · rintro ⟨hisCode, rfl⟩
            rw [hafter] at hisCode
            cases hisCode
    · rw [if_neg hrs]

end Holds

/-! From a covered machine to a sound and live one, and back. -/

theorem Covers.isRoot {m : Machine} (h : w.Covers m) {r : Ref} (hr : m.IsRoot r) : w.Has r := by
  cases hr with
  | stack hr => exact h.state.stack _ hr r (Value.mem_refs_iff.2 rfl)
  | frame hf hr => exact hr ▸ (h.state.frames _ hf).1
  | openUpvalue hr => exact h.state.openUpvalues r hr
  | global hr => exact h.state.globals r (Table.mem_refs_iff.2 hr)
  | filter hg hr =>
    have hfilter := h.state.regions _ hg
    rw [hr] at hfilter
    exact knows_reference.1 hfilter
  | handled hp hr | rethrown hp hr | returned hp hr =>
    have hvalue := h.state.completions _ hp
    rw [hr] at hvalue
    exact hvalue r (Value.mem_refs_iff.2 rfl)
  | raised hr =>
    have hvalue := h.state.raised
    rw [hr] at hvalue
    exact hvalue r (Value.mem_refs_iff.2 rfl)
  | exception k hr => exact hr ▸ h.state.exceptions k
  | primitive p hr => exact hr ▸ h.state.primitives p
  | pinned hr => exact h.state.pinned _ hr r (Value.mem_refs_iff.2 rfl)
  | message hr => exact hr ▸ h.state.message
  | stacktrace hr => exact hr ▸ h.state.stacktrace

theorem Covers.held {m : Machine} (h : w.Covers m) {r : Ref} (hr : m.Held r) : w.Has r := by
  cases hr with
  | root hr => exact h.isRoot hr
  | object hs hr => exact h.heap.objects _ _ hs r hr
  | constant hf hv hr =>
    obtain ⟨-, c, hc, hproto⟩ := h.state.frames _ hf
    have hfunction := h.heap.paired _ c hc
    rw [hproto] at hfunction
    exact h.heap.constants hfunction hv r hr

theorem Covers.sound {m : Machine} (h : w.Covers m) : m.Sound where
  heap := h.heap.wellFormed
  rest := h.heap.rest
  occupied _ hr := h.heap.occupied (h.held hr)
  closures r c hc := by
    have hcode := (h.heap.code r (.closure c)).2 ⟨rfl, hc⟩
    exact ((h.heap.code _ _).1 (h.heap.paired r c hcode)).2
  frames f hf := by
    obtain ⟨-, c, hc, hproto⟩ := h.state.frames f hf
    exact ⟨c, ((h.heap.code _ _).1 hc).2, hproto⟩

theorem Covers.live {m : Machine} (h : w.Covers m) : Live m (w.stretch.at w.created m) := by
  apply h.heap.live.after h.sound.occupied
  intro r hr
  rcases h.held hr with hheld | hpassed | hcreated
  · exact Or.inl hheld
  · exact Or.inr (List.mem_append_right _ hpassed)
  · exact Or.inr (List.mem_append_left _ hcreated)

/-- The world at the beginning of a stretch. -/
def start (σ : Stretch) : World where
  stretch := σ
  created := []
  code r o := o.isCode = true ∧ σ.start.heap.get? r = some o

theorem covers_start {σ : Stretch} (hsound : σ.start.Sound) (hlive : Live σ.start σ.births)
    (hpassed : ∀ r ∈ σ.passed, σ.start.heap.Occupied r) : (start σ).Covers σ.start := by
  have hheld {r : Ref} (hr : σ.start.Held r) : (start σ).Has r := Or.inl hr
  have hroot {r : Ref} (hr : σ.start.IsRoot r) : (start σ).Has r := hheld (.root hr)
  refine ⟨⟨hsound, hlive, hpassed, .refl, hsound.rest, ?_, fun _ _ => Iff.rfl, ?_⟩, ?_⟩
  · intro s o ho r hr
    exact hheld (.object ho hr)
  · intro r c hc
    exact ⟨rfl, hsound.closures r c hc.2⟩
  · constructor
    case stack => exact fun v hv r hr => hroot (.stack (Value.mem_refs_iff.1 hr ▸ hv))
    case frames =>
      intro f hf
      obtain ⟨c, hc, hproto⟩ := hsound.frames f hf
      exact ⟨hroot (.frame hf rfl), c, ⟨rfl, hc⟩, hproto⟩
    case openUpvalues => exact fun r hr => hroot (.openUpvalue hr)
    case globals => exact fun r hr => hroot (.global (Table.mem_refs_iff.1 hr))
    case regions =>
      intro g hg
      cases hfilter : g.filter? with
      | none => exact knows_none
      | some r => exact knows_reference.2 (hroot (.filter hg hfilter))
    case completions =>
      intro p hp
      cases hvalue : p.completion.value? with
      | none => exact knows_none
      | some v =>
        exact fun r hr => hroot (isRoot_of_completion hp (Value.mem_refs_iff.1 hr ▸ hvalue))
    case raised =>
      cases hvalue : σ.start.raised? with
      | none => exact knows_none
      | some v => exact fun r hr => hroot (.raised (Value.mem_refs_iff.1 hr ▸ hvalue))
    case exceptions => exact fun k => hroot (.exception k rfl)
    case primitives => exact fun p => hroot (.primitive p rfl)
    case pinned => exact fun v hv r hr => hroot (.pinned (Value.mem_refs_iff.1 hr ▸ hv))
    case message => exact hroot (.message rfl)
    case stacktrace => exact hroot (.stacktrace rfl)
    case kempt => exact id

end Machine.World

end ScriptMachine
