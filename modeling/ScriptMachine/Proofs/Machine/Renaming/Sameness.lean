import ScriptMachine.Proofs.Machine.Renaming.Machines
import ScriptMachine.Proofs.Machine.OrderedTables

/-!
A machine is the same as itself. Where every reference leads to an occupied slot and every table is
in order, the renaming that pairs each occupied slot with itself holds between the heap and any heap
that has all its objects, and more perhaps, over the same texts.
-/

namespace ScriptMachine

/-! Data with references that are paired with themselves. -/

section Data

variable {ρ : Renaming}

theorem Value.alike_self {v : Value} (h : ∀ r ∈ v.refs, ρ.pairs r r) : ρ.Alike v v := by
  cases v with
  | nil => exact .nil
  | bool b => exact .bool b
  | number x => exact .number x
  | ref r => exact .ref (h r List.mem_cons_self)

theorem alike_self_values {vs : List Value} (h : ∀ v ∈ vs, ∀ r ∈ v.refs, ρ.pairs r r) :
    ρ.Alike vs vs := List.forall₂_same.2 fun v hv => Value.alike_self (h v hv)

theorem alike_self_option {v? : Option Value} (h : ∀ v, v? = some v → ∀ r ∈ v.refs, ρ.pairs r r) :
    ρ.Alike v? v? := by
  cases v? with
  | none => exact .none
  | some v => exact .some (Value.alike_self (h v rfl))

theorem alike_self_ref {r? : Option Ref} (h : ∀ r, r? = some r → ρ.pairs r r) :
    ρ.Alike r? r? := by
  cases r? with
  | none => exact .none
  | some r => exact .some (h r rfl)

theorem Table.alike_self {t : Table} (hleft : t.InOrder ρ.left.pool)
    (hright : t.InOrder ρ.right.pool) (h : ∀ r ∈ t.refs, ρ.pairs r r) : ρ.Alike t t := by
  have hentry (e : Entry) (he : e ∈ t.entries) : ρ.Alike e e := by
    have hkey (r : Ref) (hr : r ∈ e.key.refs) : ρ.pairs r r :=
      h r (List.mem_flatMap.2 ⟨e, he, List.mem_append_left _ hr⟩)
    have hvalue (r : Ref) (hr : r ∈ e.value.refs) : ρ.pairs r r :=
      h r (List.mem_flatMap.2 ⟨e, he, List.mem_append_right _ hr⟩)
    exact ⟨Value.alike_self hkey, Value.alike_self hvalue, rfl⟩
  exact ⟨hleft, hright, fun e he => ⟨e, he, hentry e he⟩, fun e he => ⟨e, he, hentry e he⟩⟩

theorem Prototype.alike_self {p : Prototype}
    (h : ∀ v ∈ p.blob.constants, ∀ r ∈ v.refs, ρ.pairs r r) : ρ.Alike p p :=
  .intro (alike_self_values fun v hv => h v (Array.mem_toList_iff.1 hv))

theorem Object.alike_self {o : Object} (hrefs : ∀ r ∈ o.refs, ρ.pairs r r)
    (hconstants : ∀ v ∈ o.constants, ∀ r ∈ v.refs, ρ.pairs r r)
    (htables : ∀ t ∈ o.tables, t.InOrder ρ.left.pool ∧ t.InOrder ρ.right.pool) : ρ.Alike o o := by
  have htable {t : Table} (ht : t ∈ o.tables) (h : ∀ r ∈ t.refs, ρ.pairs r r) : ρ.Alike t t :=
    Table.alike_self (htables t ht).1 (htables t ht).2 h
  cases o with
  | function p =>
    refine .function (Prototype.alike_self fun v hv r hr => hrefs r ?_)
    exact List.mem_flatMap.2 ⟨v, Array.mem_toList_iff.2 hv, hr⟩
  | closure c =>
    rw [refs, List.forall_mem_cons] at hrefs
    exact .closure hrefs.1 (Prototype.alike_self hconstants) (List.forall₂_same.2 hrefs.2)
  | upvalue u =>
    cases u with
    | opened slot => exact .opened slot
    | closed v => exact .closed (Value.alike_self hrefs)
  | native n => exact .native n
  | bound b =>
    rw [refs, List.forall_mem_append] at hrefs
    exact .bound (Value.alike_self hrefs.1) (Value.alike_self hrefs.2)
  | cls c =>
    simp only [refs, List.forall_mem_append] at hrefs
    obtain ⟨⟨⟨⟨⟨hsuper, hmethods⟩, hstatic⟩, hdefaults⟩, hstatics⟩, hctor⟩ := hrefs
    refine .cls ⟨rfl, alike_self_ref fun r hr => hsuper r ?_, htable ?_ hmethods,
      htable ?_ hstatic, htable ?_ hdefaults, htable ?_ hstatics,
      alike_self_option fun v hv r hr => hctor r ?_⟩
    · rw [hr]
      exact List.mem_singleton_self r
    · simp [tables]
    · simp [tables]
    · simp [tables]
    · simp [tables]
    · rw [hv]
      exact hr
  | inst i =>
    rw [refs, List.forall_mem_cons] at hrefs
    exact .inst hrefs.1 (htable (List.mem_singleton_self _) hrefs.2)
  | array items =>
    rw [refs, List.forall_mem_flatMap] at hrefs
    exact .array (alike_self_values hrefs)
  | dict d =>
    rw [refs, List.forall_mem_append, List.forall_mem_flatMap] at hrefs
    exact .dict (alike_self_values hrefs.1) (htable (List.mem_singleton_self _) hrefs.2)
  | range r => exact .range r
  | switch s => exact .switch (htable (List.mem_singleton_self _) hrefs) rfl rfl

end Data

namespace Renaming

variable {h k : Heap}

/-- Every occupied slot of a heap is paired with itself. -/
def sameness (hh : h.Composed) (hk : k.Composed) (hpool : k.pool = h.pool) : Renaming where
  left := hh.fixture
  right := hk.fixture
  pairs r s := r = s ∧ h.Occupied r
  functional hs hs' := hs.1.symm.trans hs'.1
  injective hr hr' := hr.1.trans hr'.1.symm
  kinds hrs := congrArg Ref.isText hrs.1
  texts := by
    rintro i j ⟨⟨⟩, hoccupied⟩
    obtain ⟨t, ht⟩ := Option.isSome_iff_exists.1 hoccupied
    exact ⟨t, ht, (congrArg (fun p : Pool => p.arena.get? i) hpool).trans ht⟩

variable {hh : h.Composed} {hk : k.Composed} {hpool : k.pool = h.pool}

theorem sameness_pairs {r : Ref} (hr : h.Occupied r) : (sameness hh hk hpool).pairs r r := ⟨rfl, hr⟩

theorem holds_sameness (hkept : ∀ r o, h.get? r = some o → k.get? r = some o)
    (hrefs : ∀ s o, h.get? s = some o → ∀ r ∈ o.refs, h.Occupied r) :
    (sameness hh hk hpool).Holds h k where
  left := hh
  right := hk
  leftFixture := rfl
  rightFixture := rfl
  objects := by
    rintro i j ⟨⟨⟩, hoccupied⟩
    obtain ⟨o, ho⟩ : ∃ o, h.get? (.object i) = some o := Option.isSome_iff_exists.1 hoccupied
    have hclosed : h.ClosedUnder h.Occupied := fun s o' _ hs => hrefs s o' hs
    have hconstants := hclosed.object_constants hh hoccupied ho
    refine ⟨o, o, ho, hkept _ o ho, Object.alike_self ?_ ?_ ?_⟩
    · exact fun r hr => sameness_pairs (hrefs _ o ho r hr)
    · exact fun v hv r hr => sameness_pairs (hconstants v hv r hr)
    · intro t ht
      have horder := hh.inOrder _ o ho t ht
      refine ⟨horder, ?_⟩
      show t.InOrder k.pool
      rwa [hpool]

end Renaming

namespace Machine

variable {m : Machine} {k : Heap}

theorem Sound.composed (h : m.Sound) (hordered : m.InOrder) : m.heap.Composed :=
  ⟨h.heap, h.rest, hordered.heap, h.closures⟩

/-- A machine and the same machine with other settings for collections, and with more objects. -/
theorem Sound.mirrors (hm : m.Sound) (hordered : m.InOrder) (hk : k.Composed)
    (hpool : k.pool = m.heap.pool) (hkept : ∀ r o, m.heap.get? r = some o → k.get? r = some o)
    {settings : Settings} (hsettings : m.settings.limits = settings.limits) :
    (Renaming.sameness (hm.composed hordered) hk hpool).Mirrors m { m with settings, heap := k } := by
  have hheld {r : Ref} (hr : m.Held r) :
      (Renaming.sameness (hm.composed hordered) hk hpool).pairs r r :=
    Renaming.sameness_pairs (hm.occupied r hr)
  have hroot {r : Ref} (hr : m.IsRoot r) :
      (Renaming.sameness (hm.composed hordered) hk hpool).pairs r r := hheld (.root hr)
  refine ⟨Renaming.holds_sameness hkept
    (fun s o ho r hr => hm.occupied r (.object ho hr)), ?_⟩
  constructor
  case settings => exact hsettings
  case stack =>
    refine alike_self_values fun v hv r hr => hroot (.stack ?_)
    exact Array.mem_toList_iff.1 (Value.mem_refs_iff.1 hr ▸ hv)
  case frames =>
    refine List.forall₂_same.2 fun f hf => ?_
    obtain ⟨c, hc, hproto⟩ := hm.frames f hf
    refine ⟨hroot (.frame hf rfl), Prototype.alike_self fun v hv r hr => hheld (.constant hf hv hr),
      rfl, rfl, ⟨c, ⟨rfl, hc⟩, hproto⟩, ⟨c, ⟨rfl, hkept _ _ hc⟩, hproto⟩⟩
  case globals =>
    have hright : m.globals.InOrder k.pool := by
      rw [hpool]
      exact hordered.globals
    refine Table.alike_self hordered.globals hright fun r hr => hroot (.global ?_)
    exact Table.mem_refs_iff.1 hr
  case openUpvalues => exact List.forall₂_same.2 fun r hr => hroot (.openUpvalue hr)
  case regions =>
    refine List.forall₂_same.2 fun g hg => ⟨rfl, rfl, alike_self_ref fun r hr => ?_, rfl, rfl⟩
    exact hroot (.filter hg hr)
  case completions =>
    refine List.forall₂_same.2 fun p hp => ⟨rfl, rfl, ?_⟩
    have hvalue (v : Value) (hv : p.completion.value? = some v) :
        (Renaming.sameness (hm.composed hordered) hk hpool).Alike v v :=
      Value.alike_self fun r hr => hroot (isRoot_of_completion hp (Value.mem_refs_iff.1 hr ▸ hv))
    cases hcompletion : p.completion with
    | resume offset => exact .resume offset
    | handle handler e => exact .handle handler (hvalue e (by rw [hcompletion]; rfl))
    | rethrow e => exact .rethrow (hvalue e (by rw [hcompletion]; rfl))
    | giveBack v => exact .giveBack (hvalue v (by rw [hcompletion]; rfl))
  case raised =>
    exact alike_self_option fun v hv r hr => hroot (.raised (Value.mem_refs_iff.1 hr ▸ hv))
  case message => exact hroot (.message rfl)
  case stacktrace => exact hroot (.stacktrace rfl)
  case primitives => exact fun p => hroot (.primitive p rfl)
  case exceptions => exact fun kind => hroot (.exception kind rfl)
  case pinned =>
    refine alike_self_values fun v hv r hr => hroot (.pinned ?_)
    exact Array.mem_toList_iff.1 (Value.mem_refs_iff.1 hr ▸ hv)
  case output => rfl
  case errors => rfl

end Machine

end ScriptMachine
