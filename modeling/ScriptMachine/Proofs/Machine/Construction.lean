import ScriptMachine.Proofs.Machine.Coverage

/-!
A new machine is sound. While it is made, its own classes and names are not yet in place; all the
rest refers to occupied slots at any time.
-/

namespace ScriptMachine

namespace Heap

/-- A heap in which every reference leads to an occupied slot, without functions and closures. -/
structure Founded (h : Heap) : Prop where
  wellFormed : h.WellFormed
  rest : h.AtRest
  refs : ∀ s o, h.get? s = some o → ∀ r ∈ o.refs, h.Occupied r
  plain : ∀ s o, h.get? s = some o → o.isCode = false

variable {h : Heap}

theorem get?_new (threshold growth : Nat) (stress : Bool) (s : Ref) :
    (Heap.new threshold growth stress).get? s = none := by
  cases s <;> simp [Heap.new, Heap.get?, Arena.get?, Arena.cell?]

theorem founded_new (threshold growth : Nat) (stress : Bool) :
    (Heap.new threshold growth stress).Founded where
  wellFormed := ⟨Arena.wellFormed_empty, Pool.wellFormed_empty⟩
  rest := ⟨rfl, by simp [Heap.new, Arena.cell?], by simp [Heap.new, Arena.cell?]⟩
  refs s o ho := by simp [get?_new] at ho
  plain s o ho := by simp [get?_new] at ho

theorem Founded.intern (hh : h.Founded) (text : String) : (h.intern text).2.Founded where
  wellFormed := hh.wellFormed.intern text
  rest := hh.rest.intern hh.wellFormed text
  refs s o ho r hr := (occupied_intern hh.wellFormed text r).2 (Or.inr (hh.refs s o ho r hr))
  plain := hh.plain

theorem Founded.alloc (hh : h.Founded) {o : Object} (hrefs : ∀ r ∈ o.refs, h.Occupied r)
    (hplain : o.isCode = false) : (h.alloc o).2.Founded := by
  have hold {r : Ref} (hr : h.Occupied r) : (h.alloc o).2.Occupied r :=
    (occupied_alloc hh.wellFormed o r).2 (Or.inr hr)
  refine ⟨hh.wellFormed.alloc o, hh.rest.alloc hh.wellFormed o, ?_, ?_⟩
  · intro s o' ho' r hr
    rw [get?_alloc hh.wellFormed] at ho'
    split at ho'
    · rw [← Option.some.inj ho'] at hr
      exact hold (hrefs r hr)
    · exact hold (hh.refs s o' ho' r hr)
  · intro s o' ho'
    rw [get?_alloc hh.wellFormed] at ho'
    split at ho'
    · rwa [← Option.some.inj ho']
    · exact hh.plain s o' ho'

end Heap

namespace Machine

/-- A machine in the making. -/
structure Founded (m : Machine) : Prop where
  heap : m.heap.Founded
  globals : ∀ r ∈ m.globals.refs, m.heap.Occupied r
  stack : m.stack = #[]
  frames : m.frames = []
  openUpvalues : m.openUpvalues = []
  regions : m.regions = []
  completions : m.completions = []
  raised : m.raised? = none
  pinned : m.pinned = #[]

variable {α : Type} {m : Machine}

/-- Nothing is released. -/
def Within (m m' : Machine) : Prop := ∀ r, m.heap.Occupied r → m'.heap.Occupied r

theorem Founded.alloc (hm : m.Founded) {o : Object} (hrefs : ∀ r ∈ o.refs, m.heap.Occupied r)
    (hplain : o.isCode = false) :
    (m.alloc o).2.Founded ∧ m.Within (m.alloc o).2 ∧
      (m.alloc o).2.heap.Occupied (m.heap.alloc o).1 := by
  have hold : m.Within (m.alloc o).2 :=
    fun r hr => (Heap.occupied_alloc hm.heap.wellFormed o r).2 (Or.inr hr)
  refine ⟨?_, hold, (Heap.occupied_alloc hm.heap.wellFormed o _).2 (Or.inl rfl)⟩
  exact { hm with
    heap := hm.heap.alloc hrefs hplain
    globals := fun r hr => hold r (hm.globals r hr) }

theorem Founded.defineGlobal (hm : m.Founded) (name : String) {value : Value}
    (hvalue : m.heap.OccupiedValue value) :
    (m.defineGlobal name value).Founded ∧ m.Within (m.defineGlobal name value) := by
  have hold : m.Within (m.defineGlobal name value) :=
    fun r hr => (Heap.occupied_intern hm.heap.wellFormed name r).2 (Or.inr hr)
  have hkey : (m.intern name).2.heap.Occupied (m.heap.intern name).1 :=
    (Heap.occupied_intern hm.heap.wellFormed name _).2 (Or.inl rfl)
  refine ⟨{ hm with heap := hm.heap.intern name, globals := ?_ }, hold⟩
  refine Table.forall_refs_insert _ _ (fun r hr => hold r (hm.globals r hr)) ?_
    fun r hr => hold r (hvalue r hr)
  intro r hr
  rw [List.mem_singleton.1 hr]
  exact hkey

/-- The references stored for the elements of a list. -/
structure Stored (m : Machine) (as : List α) (refs : List (α × Ref)) : Prop where
  keys : refs.map Prod.fst = as
  occupied : ∀ p ∈ refs, m.heap.Occupied p.2

theorem stored_nil (m : Machine) : m.Stored ([] : List α) [] := ⟨rfl, nofun⟩

theorem Stored.cons {as : List α} {refs : List (α × Ref)} (h : m.Stored as refs) (a : α) {r : Ref}
    (hr : m.heap.Occupied r) : m.Stored (a :: as) ((a, r) :: refs) where
  keys := congrArg (a :: ·) h.keys
  occupied := List.forall_mem_cons.2 ⟨hr, h.occupied⟩

theorem Stored.mono {m' : Machine} {as : List α} {refs : List (α × Ref)} (h : m.Stored as refs)
    (hm : m.Within m') : m'.Stored as refs := ⟨h.keys, fun p hp => hm _ (h.occupied p hp)⟩

theorem Stored.refOf [BEq α] [LawfulBEq α] {as : List α} {refs : List (α × Ref)}
    (h : m.Stored as refs) {a : α} (ha : a ∈ as) : m.heap.Occupied (refOf refs a) := by
  unfold Machine.refOf
  cases hfound : refs.lookup a with
  | some r =>
    obtain ⟨l, l', hsplit, -⟩ := List.lookup_eq_some_iff.1 hfound
    have hmem : (a, r) ∈ refs := by
      rw [hsplit]
      exact List.mem_append_right l List.mem_cons_self
    exact h.occupied (a, r) hmem
  | none =>
    rw [← h.keys] at ha
    obtain ⟨p, hp, rfl⟩ := List.mem_map.1 ha
    have hne := List.lookup_eq_none_iff.1 hfound p hp
    simp at hne

theorem Founded.allocEach (hm : m.Founded) {make : α → Object} (hrefs : ∀ a, (make a).refs = [])
    (hplain : ∀ a, (make a).isCode = false) (as : List α) :
    (m.allocEach make as).2.Founded ∧ m.Within (m.allocEach make as).2 ∧
      (m.allocEach make as).2.Stored as (m.allocEach make as).1 := by
  induction as generalizing m with
  | nil => exact ⟨hm, fun _ hr => hr, stored_nil m⟩
  | cons a rest ih =>
    have hlinks : ∀ r ∈ (make a).refs, m.heap.Occupied r := by
      rw [hrefs]
      nofun
    obtain ⟨hnext, hwithin, hr⟩ := hm.alloc hlinks (hplain a)
    obtain ⟨hlast, hwithin', hstored⟩ := ih hnext
    exact ⟨hlast, fun r hr => hwithin' r (hwithin r hr), hstored.cons a (hwithin' _ hr)⟩

theorem Founded.installExceptions (hm : m.Founded) {init : Value} {root : Option Ref}
    (hinit : m.heap.OccupiedValue init) (hroot : ∀ r, root = some r → m.heap.Occupied r)
    (kinds : List ExceptionKind) :
    (m.installExceptions init root kinds).2.Founded ∧
      m.Within (m.installExceptions init root kinds).2 ∧
      (m.installExceptions init root kinds).2.Stored kinds
        (m.installExceptions init root kinds).1 := by
  induction kinds generalizing m root with
  | nil => exact ⟨hm, fun _ hr => hr, stored_nil m⟩
  | cons kind rest ih =>
    let cls : Class := { name := kind.name, superclass := root, constructor? := some init }
    have hlinks : ∀ r ∈ (Object.cls cls).refs, m.heap.Occupied r := by
      intro r hr
      simp only [cls, Object.refs, List.mem_append, Option.mem_toList] at hr
      have hempty : r ∉ Table.refs {} := fun hmem =>
        Table.forall_refs_empty (K := fun _ => False) r hmem
      rcases hr with ((((hsuper | hmem) | hmem) | hmem) | hmem) | hctor
      · exact hroot r hsuper
      all_goals first | exact absurd hmem hempty | exact hinit r hctor
    obtain ⟨hstored, hwithin, hr⟩ := hm.alloc hlinks rfl
    have hvalue : (m.alloc (.cls cls)).2.heap.OccupiedValue (.ref (m.heap.alloc (.cls cls)).1) := by
      intro s hs
      rwa [List.mem_singleton.1 hs]
    obtain ⟨hnext, hwithin'⟩ := hstored.defineGlobal kind.name hvalue
    have hold : m.Within ((m.alloc (.cls cls)).2.defineGlobal kind.name
        (.ref (m.heap.alloc (.cls cls)).1)) := fun s hs => hwithin' s (hwithin s hs)
    have hroot' : ∀ s, (root <|> some (m.heap.alloc (.cls cls)).1) = some s →
        ((m.alloc (.cls cls)).2.defineGlobal kind.name
          (.ref (m.heap.alloc (.cls cls)).1)).heap.Occupied s := by
      intro s hs
      rw [Option.orElse_eq_orElse, Option.orElse_eq_or, Option.or_eq_some_iff] at hs
      rcases hs with hs | ⟨-, hs⟩
      · exact hold s (hroot s hs)
      · rw [← Option.some.inj hs]
        exact hwithin' _ hr
    obtain ⟨hlast, hwithin'', hrefs⟩ := ih hnext (fun s hs => hold s (hinit s hs)) hroot'
    exact ⟨hlast, fun s hs => hwithin'' s (hold s hs),
      hrefs.cons kind (hwithin'' _ (hwithin' _ hr))⟩

theorem Founded.occupied_root (hm : m.Founded) {builtins : Builtins}
    (hmessage : m.heap.Occupied builtins.message)
    (hstacktrace : m.heap.Occupied builtins.stacktrace)
    (hprimitive : ∀ p, m.heap.Occupied (builtins.primitive p))
    (hexception : ∀ k, m.heap.Occupied (builtins.exception k)) {r : Ref}
    (hr : ({ m with builtins } : Machine).IsRoot r) : m.heap.Occupied r := by
  cases hr with
  | stack hr => exact absurd (hm.stack ▸ hr) (Array.not_mem_empty _)
  | frame hf _ => exact absurd (hm.frames ▸ hf) List.not_mem_nil
  | openUpvalue hr => exact absurd (hm.openUpvalues ▸ hr) List.not_mem_nil
  | global hr => exact hm.globals r (Table.mem_refs_iff.2 hr)
  | filter hg _ => exact absurd (hm.regions ▸ hg) List.not_mem_nil
  | handled hp _ | rethrown hp _ | returned hp _ =>
    exact absurd (hm.completions ▸ hp) List.not_mem_nil
  | raised hr => exact absurd (hm.raised.symm.trans hr) nofun
  | exception k hr => exact hr ▸ hexception k
  | primitive p hr => exact hr ▸ hprimitive p
  | pinned hr => exact absurd (hm.pinned ▸ hr) (Array.not_mem_empty _)
  | message hr => exact hr ▸ hmessage
  | stacktrace hr => exact hr ▸ hstacktrace

/-- Once its classes and names are in place, a machine is sound. -/
theorem Founded.sound (hm : m.Founded) {builtins : Builtins}
    (hmessage : m.heap.Occupied builtins.message)
    (hstacktrace : m.heap.Occupied builtins.stacktrace)
    (hprimitive : ∀ p, m.heap.Occupied (builtins.primitive p))
    (hexception : ∀ k, m.heap.Occupied (builtins.exception k)) :
    ({ m with builtins } : Machine).Sound := by
  refine ⟨hm.heap.wellFormed, hm.heap.rest, ?_, ?_, ?_⟩
  · intro r hr
    cases hr with
    | root hr => exact hm.occupied_root hmessage hstacktrace hprimitive hexception hr
    | object hs hr => exact hm.heap.refs _ _ hs r hr
    | constant hf _ _ => exact absurd (hm.frames ▸ hf) List.not_mem_nil
  · intro r c hc
    exact absurd (hm.heap.plain r _ hc) nofun
  · intro f hf
    exact absurd (hm.frames ▸ hf) List.not_mem_nil

/-- A machine gets its classes. -/
theorem Founded.equipped {primitives : List (Primitive × Ref) × Machine} {init : Value × Machine}
    {exceptions : List (ExceptionKind × Ref) × Machine} {n : NativeFunction} (hm : m.Founded)
    (hmessage : m.heap.Occupied m.builtins.message)
    (hstacktrace : m.heap.Occupied m.builtins.stacktrace)
    (hprimitives : m.allocEach (fun p => .cls { name := p.name }) Primitive.all = primitives)
    (hinit : primitives.2.alloc (.native n) = init)
    (hexceptions : init.2.installExceptions init.1 none ExceptionKind.all = exceptions) :
    ({ exceptions.2 with
      builtins :=
        { m.builtins with
          primitive := refOf primitives.1, exception := refOf exceptions.1 } } : Machine).Sound := by
  let make : Primitive → Object := fun p => .cls { name := p.name }
  have hrefs : ∀ p, (make p).refs = [] := fun _ => rfl
  have hplain : ∀ p, (make p).isCode = false := fun _ => rfl
  obtain ⟨hfirst, hwithin, hstored⟩ := hm.allocEach hrefs hplain Primitive.all
  rw [hprimitives] at hfirst hwithin hstored
  obtain ⟨hsecond, hwithin', hnative⟩ := hfirst.alloc (o := .native n) nofun rfl
  have hvalue : (primitives.2.alloc (.native n)).2.heap.OccupiedValue
      (primitives.2.alloc (.native n)).1 := by
    intro r hr
    rwa [List.mem_singleton.1 hr]
  rw [hinit] at hsecond hwithin' hvalue
  have hroot : ∀ r, (none : Option Ref) = some r → init.2.heap.Occupied r := nofun
  obtain ⟨hthird, hwithin'', hstored'⟩ := hsecond.installExceptions hvalue hroot ExceptionKind.all
  rw [hexceptions] at hthird hwithin'' hstored'
  have hold : m.Within exceptions.2 := fun r hr => hwithin'' r (hwithin' r (hwithin r hr))
  apply hthird.sound
  · exact hold _ hmessage
  · exact hold _ hstacktrace
  · intro p
    exact ((hstored.mono hwithin').mono hwithin'').refOf (by cases p <;> decide)
  · intro k
    exact hstored'.refOf (by cases k <;> decide)

/-- A new machine is sound. -/
theorem sound_new (settings : Settings) : (Machine.new settings).Sound := by
  unfold Machine.new
  dsimp only
  -- each stage gets a name before the next, so that nothing is evaluated
  have hempty := Heap.founded_new settings.gcInitialThreshold settings.gcGrowthFactor settings.stressGc
  generalize Heap.new settings.gcInitialThreshold settings.gcGrowthFactor settings.stressGc = h
    at hempty ⊢
  have hfirst := hempty.intern "message"
  have hmessage := (Heap.occupied_intern hempty.wellFormed "message" _).2 (Or.inl rfl)
  generalize h.intern "message" = first at hfirst hmessage ⊢
  have hsecond := hfirst.intern "stacktrace"
  have hstacktrace := (Heap.occupied_intern hfirst.wellFormed "stacktrace" _).2 (Or.inl rfl)
  replace hmessage := (Heap.occupied_intern hfirst.wellFormed "stacktrace" _).2 (Or.inr hmessage)
  generalize first.2.intern "stacktrace" = second at hsecond hmessage hstacktrace ⊢
  generalize hm : ({
      settings, heap := second.2
      builtins :=
        { (default : Builtins) with message := first.1, stacktrace := second.1 } } : Machine) = m
  have hbare : m.Founded := by
    rw [← hm]
    exact ⟨hsecond, Table.forall_refs_empty, rfl, rfl, rfl, rfl, rfl, rfl, rfl⟩
  generalize hprimitives : m.allocEach (fun p => .cls { name := p.name }) Primitive.all = primitives
  generalize hinit : primitives.2.alloc (.native _) = init
  generalize hexceptions : init.2.installExceptions init.1 none ExceptionKind.all = exceptions
  subst hm
  exact hbare.equipped hmessage hstacktrace hprimitives hinit hexceptions

end Machine

end ScriptMachine
