import ScriptMachine.Proofs.Machine.Construction
import ScriptMachine.Proofs.Machine.Safety.Session

/-!
Dicts that are left alone. Only three operations make or change a dict. Whatever else the machine
does, each dict that is there afterwards was there before with the same keys and entries, and the
texts it refers to stay in their slots with their contents: the dict holds them through collections.
-/

namespace ScriptMachine

namespace Heap

variable {h h' h'' : Heap} {r : Ref} {d : Dict}

/-- The dicts of a later heap were dicts before, and the texts they refer to are the same. -/
structure DictsKept (h h' : Heap) : Prop where
  wellFormed : h'.WellFormed
  rest : h'.AtRest
  dict : ∀ r d, h'.get? r = some (.dict d) → h.get? r = some (.dict d)
  text : ∀ r d, h'.get? r = some (.dict d) → ∀ s ∈ (Object.dict d).refs, ∀ x,
    h.pool.get? s = some x → h'.pool.get? s = some x

/-- What becomes of a heap between collections leaves the dicts alone. -/
def LeavesDicts (h h' : Heap) : Prop := h.WellFormed → h.AtRest → DictsKept h h'

namespace LeavesDicts

theorem refl (h : Heap) : LeavesDicts h h :=
  fun hwf hrest => ⟨hwf, hrest, fun _ _ => id, fun _ _ _ _ _ _ => id⟩

theorem trans (hh : LeavesDicts h h') (hh' : LeavesDicts h' h'') : LeavesDicts h h'' := by
  intro hwf hrest
  have hfirst := hh hwf hrest
  have hsecond := hh' hfirst.wellFormed hfirst.rest
  refine ⟨hsecond.wellFormed, hsecond.rest, fun r d hr => hfirst.dict r d (hsecond.dict r d hr), ?_⟩
  intro r d hr s hs x hx
  exact hsecond.text r d hr s hs x (hfirst.text r d (hsecond.dict r d hr) s hs x hx)

theorem alloc (h : Heap) {o : Object} (ho : o.isDict = false) : LeavesDicts h (h.alloc o).2 := by
  intro hwf hrest
  refine ⟨hwf.alloc o, hrest.alloc hwf o, fun r d hr => ?_, fun _ _ _ _ _ _ => id⟩
  rw [get?_alloc hwf] at hr
  split at hr
  · rw [Option.some.inj hr] at ho
    cases ho
  · exact hr

theorem intern (h : Heap) (text : String) : LeavesDicts h (h.intern text).2 := by
  intro hwf hrest
  refine ⟨hwf.intern text, hrest.intern hwf text, fun _ _ => id, fun _ _ _ s _ x hx => ?_⟩
  cases s with
  | object i => cases hx
  | text i => exact hwf.pool.get?_intern text hx

/-- A change that neither begins nor ends with a dict. -/
theorem update {f : Object → Object}
    (hf : ∀ o, h.get? r = some o → f o = o ∨ o.isDict = false ∧ (f o).isDict = false) :
    LeavesDicts h (h.update r f) := by
  intro hwf hrest
  refine ⟨hwf.update r f, hrest.update r f, fun s d hs => ?_, fun _ _ _ _ _ _ hx => ?_⟩
  · rw [get?_update] at hs
    split at hs
    · next heq =>
      subst heq
      obtain ⟨o, ho, hd⟩ := Option.map_eq_some_iff.1 hs
      rcases hf o ho with hsame | ⟨-, hother⟩
      · rw [ho, ← hsame, hd]
      · rw [hd] at hother
        cases hother
    · exact hs
  · rwa [pool_update]

/-- A dict that can be reached holds the texts it refers to. -/
theorem collect (h : Heap) (roots : List Ref) : LeavesDicts h (h.collect roots).2 := by
  intro hwf hrest
  have hcollected := hrest.collected roots
  refine ⟨hwf.collect roots, hcollected.rest, fun r d hr => (hcollected.get?_iff.1 hr).1, ?_⟩
  intro r d hr s hs x hx
  obtain ⟨hold, hreach⟩ := hcollected.get?_iff.1 hr
  cases s with
  | object i => cases hx
  | text i => exact (hcollected.texts i x).2 ⟨hx, hreach.step hold hs⟩

end LeavesDicts

instance lasting_leavesDicts (h : Heap) : LastingOutsideDicts (LeavesDicts h) where
  alloc hh _ ho := hh.trans (.alloc _ ho)
  intern text hh := hh.trans (.intern _ text)
  update hh _ hf := hh.trans (.update hf)
  collect roots hh := hh.trans (.collect _ roots)

end Heap

/-- The natives of a host make no dicts and change none. -/
def Host.LeavesDicts (host : Host) : Prop :=
  ∀ name receiver args (m : Machine), m.heap.LeavesDicts (host name receiver args m).2.heap

theorem Host.LeavesDicts.respects {host : Host} (hhost : host.LeavesDicts) (h : Heap) :
    host.Respects h.LeavesDicts where
  native name receiver args m hm := hm.trans (hhost name receiver args m)

theorem Host.leavesDicts_stock : (Host.stock .closed).LeavesDicts := fun name receiver args m =>
  (Host.respects_stock (I := m.heap.LeavesDicts)).native name receiver args m (.refl m.heap)

namespace Machine

variable {host : Host} {m : Machine}

theorem leavesDicts_installExceptions (init : Value) (kinds : List ExceptionKind) {h : Heap}
    {root : Option Ref} (hm : h.LeavesDicts m.heap) :
    h.LeavesDicts (m.installExceptions init root kinds).2.heap := by
  induction kinds generalizing m root with
  | nil => exact hm
  | cons kind rest ih =>
    have hstored := (hm.trans (.alloc m.heap (o := .cls {
      name := kind.name, superclass := root, constructor? := some init }) rfl)).trans
      (.intern _ kind.name)
    exact ih (m := (m.alloc (.cls _)).2.defineGlobal kind.name _) hstored

/-- A new machine has no dicts. -/
theorem not_dict_new (settings : Settings) (r : Ref) (d : Dict) :
    (Machine.new settings).heap.get? r ≠ some (.dict d) := by
  let empty := Heap.new settings.gcInitialThreshold settings.gcGrowthFactor settings.stressGc
  have hempty : empty.Founded := Heap.founded_new _ _ _
  have hleaves : empty.LeavesDicts (Machine.new settings).heap :=
    lasts_new settings (.refl empty) fun init m => leavesDicts_installExceptions init _
  intro hr
  have hold := (hleaves hempty.wellFormed hempty.rest).dict r d hr
  rw [Heap.get?_new] at hold
  cases hold

/-- Letting a class inherit, and binding a method, has nothing to do with dicts. -/
theorem guardsAt_instruction_leavesDicts {h : Heap} (hhost : host.LeavesDicts)
    (hm : h.LeavesDicts m.heap) (hother : ∀ op ∈ dictOps, m.opcode? ≠ some op) :
    GuardsAt m.Underfed h.LeavesDicts m (instruction host) := by
  have hrespects := hhost.respects h
  refine guardsAt_instruction hm (fun _ r s h' hinheriting => ?_) (fun cls name e receiver _ => ?_)
    fun op hop hopcode => absurd hopcode (hother op hop)
  · obtain ⟨c, parent, -, -, rfl⟩ := hinheriting.heap
    refine hm.trans (.update fun o _ => ?_)
    cases o with
    | cls c => exact Or.inr ⟨rfl, rfl⟩
    | _ => exact Or.inl rfl
  · exact hm.trans (.alloc _ rfl)

/-- Requests make no dict but the one that they pass. -/
theorem leavesDicts_request (m : Machine) (q : Request)
    (hstored : ∀ o, q = .alloc o → o.isDict = false) : m.heap.LeavesDicts (q.perform m).heap := by
  refine lasts_request (.refl m.heap) q fun o hq => Or.inr ?_
  exact .alloc m.heap (hstored o hq)

/-- Every activity but an instruction. -/
theorem leavesDicts_activity (hhost : host.LeavesDicts) (m : Machine) {a : Activity}
    (ha : a ≠ .instruction) : m.heap.LeavesDicts (a.perform host m).heap := by
  have hrespects := hhost.respects m.heap
  exact lasts_activity (.refl m.heap) a fun heq => absurd heq ha

end Machine

end ScriptMachine
