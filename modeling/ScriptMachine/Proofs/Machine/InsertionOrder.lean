import ScriptMachine.Proofs.Machine.ArrayPositions
import ScriptMachine.Proofs.Machine.DictWork
import ScriptMachine.Proofs.Machine.Liveness
import ScriptMachine.Proofs.Table.InsertionOrder

/-!
Dicts keep the order of insertion. A session comes with a record of what scripts stored into the
dict in each slot since it was made. In every machine that comes up each dict is what the stores on
record made of it, so it lists their keys in the order in which they came first, and shows under
each what was stored last. Collections may come in between: a dict holds the texts that are its keys.
-/

namespace ScriptMachine

/-- What scripts stored into the dict in each slot since it was made. There is no record of a dict
that the host put into the heap. -/
abbrev DictRecord := Ref → Option (List (Value × Value))

namespace DictRecord

variable {σ : DictRecord} {h h' : Heap}

/-- The record after something was done to a dict. -/
def after (σ : DictRecord) : DictAction → DictRecord
  | .make r => Function.update σ r (some [])
  | .store r key value => Function.update σ r ((σ r).map (· ++ [(key, value)]))

/-- Each dict is what the stores on record made of it, unless NaN is a key of one of them. -/
def Describes (σ : DictRecord) (h : Heap) : Prop :=
  ∀ r d stores, h.get? r = some (.dict d) → σ r = some stores →
    (∀ s ∈ stores, s.1.isNaN = false) → d.MadeBy h.pool stores

theorem Describes.leave (hσ : σ.Describes h) (hwf : h.WellFormed) (hkept : h.DictsKept h') :
    σ.Describes h' := by
  intro r d stores hr hstores hnumbers
  have hold := hσ r d stores (hkept.dict r d hr) hstores hnumbers
  exact hold.overPool hwf.pool (hkept.text r d hr)

/-- A slot that gets an object loses its record, if it does not get a new dict. -/
theorem Describes.alloc (hσ : σ.Describes h) (hwf : h.WellFormed) (o : Object) :
    DictRecord.Describes (Function.update σ (h.alloc o).1 none) (h.alloc o).2 := by
  intro r d stores hr hstores hnumbers
  rw [Heap.get?_alloc hwf] at hr
  by_cases hnew : r = (h.alloc o).1
  · rw [hnew, Function.update_self] at hstores
    cases hstores
  · rw [if_neg hnew] at hr
    rw [Function.update_of_ne hnew] at hstores
    exact hσ r d stores hr hstores hnumbers

theorem Describes.make (hσ : σ.Describes h) (hwf : h.WellFormed) :
    (σ.after (.make (h.alloc (.dict {})).1)).Describes (h.alloc (.dict {})).2 := by
  intro r d stores hr hstores hnumbers
  rw [Heap.get?_alloc hwf] at hr
  dsimp only [after] at hstores
  by_cases hnew : r = (h.alloc (.dict {})).1
  · rw [if_pos hnew] at hr
    obtain rfl := Object.dict.inj (Option.some.inj hr)
    rw [hnew, Function.update_self] at hstores
    obtain rfl := Option.some.inj hstores
    exact Dict.madeBy_empty _
  · rw [if_neg hnew] at hr
    rw [Function.update_of_ne hnew] at hstores
    exact hσ r d stores hr hstores hnumbers

theorem Describes.store (hσ : σ.Describes h) (hwf : h.WellFormed) {key : Value}
    (hkey : h.pool.Holds key) (r : Ref) (value : Value) :
    (σ.after (.store r key value)).Describes (h.storeInDict r key value) := by
  intro s d stores hs hstores hnumbers
  unfold Heap.storeInDict at hs ⊢
  dsimp only [after] at hstores
  rw [Heap.pool_update]
  rw [Heap.get?_update] at hs
  by_cases hrs : r = s
  · subst hrs
    rw [if_pos rfl] at hs
    rw [Function.update_self] at hstores
    obtain ⟨before, hbefore, rfl⟩ := Option.map_eq_some_iff.1 hstores
    obtain ⟨o, ho, hd⟩ := Option.map_eq_some_iff.1 hs
    cases o with
    | dict old =>
      obtain rfl := Object.dict.inj hd
      rw [List.forall_mem_append] at hnumbers
      have hold := hσ r old before ho hbefore hnumbers.1
      exact hold.insert hwf.pool hkey (hnumbers.2 _ List.mem_cons_self) value
    | _ => cases hd
  · rw [if_neg hrs] at hs
    rw [Function.update_of_ne (Ne.symm hrs)] at hstores
    exact hσ s d stores hs hstores hnumbers

end DictRecord

namespace Heap

variable {h : Heap} {work rest : List DictAction} {items : List Value}

/-- What a machine may do to dicts: it makes them in vacant slots, and stores under keys that are
held. -/
inductive Permits : Heap → List DictAction → Prop where
  | done {h : Heap} : Permits h []
  | make {h : Heap} {rest : List DictAction} (hrest : Permits (h.alloc (.dict {})).2 rest) :
      Permits h (.make (h.alloc (.dict {})).1 :: rest)
  | store {h : Heap} {rest : List DictAction} {r : Ref} {key value : Value}
      (hkey : h.pool.Holds key) (hrest : Permits (h.storeInDict r key value) rest) :
      Permits h (.store r key value :: rest)

theorem tidy_foldl (work : List DictAction) (hwf : h.WellFormed) (hrest : h.AtRest) :
    (work.foldl perform h).WellFormed ∧ (work.foldl perform h).AtRest := by
  induction work generalizing h with
  | nil => exact ⟨hwf, hrest⟩
  | cons a work ih =>
    cases a with
    | make r => exact ih (hwf.alloc _) (hrest.alloc hwf _)
    | store r key value => exact ih (hwf.update _ _) (hrest.update _ _)

theorem Permits.describes (hpermits : h.Permits work) (hwf : h.WellFormed) {σ : DictRecord}
    (hσ : σ.Describes h) :
    (work.foldl DictRecord.after σ).Describes (work.foldl Heap.perform h) := by
  induction hpermits generalizing σ with
  | done => exact hσ
  | make _ ih => exact ih (hwf.alloc (.dict {})) (hσ.make hwf)
  | store hkey _ ih => exact ih (hwf.update _ _) (hσ.store hwf hkey _ _)

theorem permits_pairWork (r : Ref) :
    ∀ {h : Heap} (items : List Value), (∀ v ∈ items, h.pool.Holds v) → h.Permits (pairWork r items)
  | _, [], _ => .done
  | _, [_], _ => .done
  | h, key :: value :: rest, hitems => by
    unfold pairWork
    split
    · refine .store (hitems key List.mem_cons_self) (permits_pairWork r rest fun v hv => ?_)
      unfold storeInDict
      rw [pool_update]
      exact hitems v (List.mem_cons_of_mem _ (List.mem_cons_of_mem _ hv))
    · exact .done

end Heap

namespace Machine

variable {host : Host} {settings : Settings} {m : Machine} {σ : DictRecord} {v : Value}

/-! What a machine may do. -/

/-- A value that a machine holds is held by the pool if it is a text. -/
theorem Sound.holds (hsound : m.Sound) (hheld : ∀ r ∈ v.refs, m.Held r) : m.heap.pool.Holds v := by
  rintro i rfl
  exact Option.isSome_iff_exists.1 (hsound.occupied (.text i) (hheld _ List.mem_cons_self))

theorem Sound.holds_stack (hsound : m.Sound) (hv : v ∈ m.stack) : m.heap.pool.Holds v :=
  hsound.holds fun _ hr => .root (.stack (Value.mem_refs_iff.1 hr ▸ hv))

theorem mem_of_top? {distance : Nat} (htop : m.top? distance = some v) : v ∈ m.stack := by
  unfold top? at htop
  split at htop
  · rw [← Option.some.inj htop, Array.getD_eq_getD_getElem?, Array.getElem?_eq_getElem (by omega),
      Option.getD_some]
    exact Array.getElem_mem _
  · cases htop

theorem mem_of_constantAt? {b : Blob} {offset : Nat} (hv : b.constantAt? offset = some v) :
    v ∈ b.constants := by
  obtain ⟨index, -, hindex⟩ := Option.bind_eq_some_iff.1 hv
  exact Array.mem_of_getElem? hindex

theorem permits_storeWork {key : Value} (hkey : m.heap.pool.Holds key) (r : Ref) (value : Value) :
    m.heap.Permits (m.storeWork r key value) := by
  unfold storeWork
  split
  · exact .store hkey .done
  · exact .done

theorem Sound.permits_dictWork (hsound : m.Sound) : m.heap.Permits m.dictWork := by
  unfold dictWork
  split
  · next f hframe hop =>
    cases f.proto.blob.shortAt? (f.ip + 1) with
    | none => exact .done
    | some count =>
      show m.heap.Permits (m.makeWork count.toNat)
      unfold makeWork
      dsimp only
      split
      · refine .make (Heap.permits_pairWork _ _ fun v hv => hsound.holds_stack ?_)
        exact ArraySlots.mem_of_mem_extract (Array.mem_toList_iff.1 hv)
      · exact .done
  · unfold indexWork
    split
    · next hkey _ => exact permits_storeWork (hsound.holds_stack (mem_of_top? hkey)) _ _
    · exact .done
  · next f hframe hop =>
    cases hname : f.proto.blob.constantAt? (f.ip + 1) with
    | none => exact .done
    | some name =>
      show m.heap.Permits (m.propertyWork name)
      unfold propertyWork
      split
      · refine permits_storeWork (hsound.holds fun r hr => ?_) _ _
        exact .constant (List.mem_of_head? hframe) (mem_of_constantAt? hname) hr
      · exact .done
  · exact .done

/-! Sessions. -/

/-- A dict that the host puts into the heap has no record. -/
def Request.record (m : Machine) (σ : DictRecord) : Request → DictRecord
  | .alloc (.dict d) => Function.update σ (m.heap.alloc (.dict d)).1 none
  | _ => σ

def Activity.dictWork (m : Machine) : Activity → List DictAction
  | .instruction => m.dictWork
  | _ => []

/-- The machines that come up in the sessions of a host, with what was stored into their dicts. A new
machine has no dicts, and only the host can take the record of a slot away. -/
inductive ReachedWith (host : Host) (settings : Settings) : Machine → DictRecord → Prop where
  | new : ReachedWith host settings (Machine.new settings) fun _ => some []
  | request {m : Machine} {σ : DictRecord} (hreached : ReachedWith host settings m σ) (q : Request)
      (hproper : q.Proper m) : ReachedWith host settings (q.perform m) (q.record m σ)
  | collect {m : Machine} {σ : DictRecord} (hreached : ReachedWith host settings m σ) :
      ReachedWith host settings m.collect.2 σ
  | act {m : Machine} {σ : DictRecord} (hreached : ReachedWith host settings m σ) (a : Activity)
      (hproper : a.Proper m) :
      ReachedWith host settings (a.perform host m) ((a.dictWork m).foldl DictRecord.after σ)

/-- Every machine that comes up has a record. -/
theorem reached_iff_exists_record : Reached host settings m ↔ ∃ σ, ReachedWith host settings m σ := by
  constructor
  · intro hreached
    induction hreached with
    | new => exact ⟨_, .new⟩
    | request _ q hproper ih => exact ⟨_, .request ih.choose_spec q hproper⟩
    | collect _ ih => exact ⟨_, .collect ih.choose_spec⟩
    | act _ a hproper ih => exact ⟨_, .act ih.choose_spec a hproper⟩
  · rintro ⟨σ, hreached⟩
    induction hreached with
    | new => exact .new
    | request _ q hproper ih => exact .request ih q hproper
    | collect _ ih => exact .collect ih
    | act _ a hproper ih => exact .act ih a hproper

theorem describes_request (hsound : m.Sound) (hσ : σ.Describes m.heap) (q : Request) :
    (q.record m σ).Describes (q.perform m).heap := by
  by_cases hdict : ∃ d, q = .alloc (.dict d)
  · obtain ⟨d, rfl⟩ := hdict
    exact hσ.alloc hsound.heap (.dict d)
  · have hrecord : q.record m σ = σ := by
      unfold Request.record
      split
      · next d => exact absurd ⟨d, rfl⟩ hdict
      · rfl
    have hleaves := leavesDicts_request m q fun o ho => by
      cases o with
      | dict d => exact absurd ⟨d, ho⟩ hdict
      | _ => rfl
    rw [hrecord]
    exact hσ.leave hsound.heap (hleaves hsound.heap hsound.rest)

theorem describes_act (hhost : host.LeavesDicts) (hsound : m.Sound) (hσ : σ.Describes m.heap)
    (a : Activity) :
    ((a.dictWork m).foldl DictRecord.after σ).Describes (a.perform host m).heap := by
  by_cases ha : a = .instruction
  · subst ha
    have hworked := hsound.permits_dictWork.describes hsound.heap hσ
    have hdone : Does m.Underfed m m.dictWork (instruction host) :=
      does_instruction hhost hsound.heap
    obtain ⟨hwf, hrest⟩ := Heap.tidy_foldl m.dictWork hsound.heap hsound.rest
    exact hworked.leave hwf (hdone.final hwf hrest)
  · have hnothing : a.dictWork m = [] := by
      cases a with
      | instruction => exact absurd rfl ha
      | _ => rfl
    have hleaves := leavesDicts_activity hhost m ha
    rw [hnothing]
    exact hσ.leave hsound.heap (hleaves hsound.heap hsound.rest)

/-- A session keeps the record, and the machine sound. -/
theorem ReachedWith.describes (horderly : host.Orderly) (hhost : host.LeavesDicts)
    (hreached : ReachedWith host settings m σ) : m.Sound ∧ σ.Describes m.heap := by
  induction hreached with
  | new =>
    exact ⟨sound_new settings, fun r d stores hr => absurd hr (not_dict_new settings r d)⟩
  | request _ q hproper ih =>
    obtain ⟨hsound, hσ⟩ := ih
    exact ⟨(hsound.request (live_initial hsound) hproper).1, describes_request hsound hσ q⟩
  | @collect m σ _ ih =>
    obtain ⟨hsound, hσ⟩ := ih
    have hkept := Heap.LeavesDicts.collect m.heap m.roots hsound.heap hsound.rest
    exact ⟨hsound.collect, hσ.leave hsound.heap hkept⟩
  | act _ a hproper ih =>
    obtain ⟨hsound, hσ⟩ := ih
    exact ⟨(hsound.act horderly (live_initial hsound) hproper).1, describes_act hhost hsound hσ a⟩

/-! What scripts see of a dict. -/

variable {d : Dict} {r : Ref} {key name value : Value} {below : Array Value}

/-- A dict is read under a key; an index that is a range is a key like any other. -/
theorem elementOrSlice_dict (hr : m.heap.get? r = some (.dict d)) (name : Value) :
    elementOrSlice (.ref r) name m =
      match d.table.get? m.heap.pool name with
      | some v => .ok v m
      | none => misuse (.missingKey (m.heap.renderQuoted name)) m := by
  have htext : m.heap.text? (.ref r) = none := by
    cases r with
    | text i => cases hr
    | object i => rfl
  have hobject : m.heap.object? (.ref r) = some (.dict d) := hr
  have hread : element (.ref r) name m =
      match d.table.get? m.heap.pool name with
      | some v => .ok v m
      | none => misuse (.missingKey (m.heap.renderQuoted name)) m := by
    unfold element
    rw [get_bind, htext]
    dsimp only
    rw [hobject]
    dsimp only
    cases d.table.get? m.heap.pool name with
    | some v => rfl
    | none => rfl
  have hwhole : m.isSliceable (.ref r) = false := by
    unfold isSliceable
    rw [hobject]
    cases r with
    | text i => cases hr
    | object i => rfl
  have hsame : elementOrSlice (.ref r) name m = element (.ref r) name m := by
    unfold elementOrSlice
    rw [get_bind, hwhole]
    cases m.heap.object? name with
    | none => rfl
    | some o => cases o <;> rfl
  rw [hsame, hread]

theorem renderAt_dict {h : Heap} (hr : h.get? r = some (.dict d)) (room : Nat) (quoted : Bool) :
    h.renderAt (room + 1) quoted (.ref r) = h.renderDict d (some (h.renderAt room true)) := by
  cases r with
  | text i => cases hr
  | object i =>
    rw [Heap.renderAt, Heap.renderWith, hr]
    intro _ htext
    cases htext

/-- A key that is neither a text nor a number nor a truth value is refused. -/
theorem setIndex_refuses (hwf : m.heap.WellFormed) (hr : m.heap.get? r = some (.dict d))
    (hkey : key.isDictKey = false) (hstack : m.stack = below ++ #[.ref r, key, value]) :
    m.Refuses .typeError setIndex := by
  obtain ⟨e, q, herror, hrefused⟩ := refuses_misuse hwf .dictKey
  have hvalue : peek 0 m = .ok value m := peek_append hstack (by simp)
  have hindex : peek 1 m = .ok key m := peek_append hstack (by simp)
  have hreceiver : peek 2 m = .ok (.ref r) m := peek_append hstack (by simp)
  refine ⟨e, q, ?_, hrefused⟩
  rw [setIndex_dict (top?_of_peek hvalue) (top?_of_peek hindex) (top?_of_peek hreceiver) hr,
    insertIntoDict_refused hkey]
  exact bind_of_error herror _

/-- Dicts keep the order of insertion. A dict that a script made lists each key once, in the order
in which the keys came first, and has as many entries. -/
theorem dicts_keep_insertion_order (horderly : host.Orderly) (hhost : host.LeavesDicts)
    (hreached : ReachedWith host settings m σ) :
    let p := m.heap.pool
    (∀ r d stores, m.heap.get? r = some (.dict d) → σ r = some stores →
      (∀ s ∈ stores, s.1.isNaN = false) →
      d.keys.toList = Dict.firstKeys p stores ∧
      (d.keys.toList.Pairwise fun a b => p.sameKey a b = false) ∧
      d.keys.size = d.table.live ∧
      (∀ key ∈ d.keys, ∃ v, Dict.latest? p stores key = some v) ∧
      (∀ name v, Dict.latest? p stores name = some v → d.table.get? p name = some v ∧
        ∀ (below : Array Value) (willAssign : Bool),
          let reading : Machine := { m with stack := below ++ #[.ref r, name] }
          getIndex willAssign reading =
            .ok () { m with stack := (if willAssign then reading.stack else below).push v }) ∧
      ∀ room quoted, m.heap.renderAt (room + 1) quoted (.ref r) =
        "\x7b" ++ ", ".intercalate (d.keys.toList.map fun key =>
          m.heap.renderAt room true key ++ ": " ++
            m.heap.renderAt room true ((Dict.latest? p stores key).getD .nil)) ++ "\x7d") ∧
    ∀ (q : Machine) r d key value, q.heap.WellFormed → q.heap.get? r = some (.dict d) →
      key.isDictKey = false → q.Refuses .typeError (insertIntoDict r key value) ∧
        ∀ below, q.stack = below ++ #[.ref r, key, value] → q.Refuses .typeError setIndex := by
  intro p
  obtain ⟨hsound, hσ⟩ := hreached.describes horderly hhost
  have hp : p.WellFormed := hsound.heap.pool
  refine ⟨fun r d stores hr hstores hnumbers => ?_, fun q r d key value hwf hr hkey => ?_⟩
  · have hmade := hσ r d stores hr hstores hnumbers
    refine ⟨hmade.keys, ?_, hmade.size, fun key hkey => hmade.exists_latest hp hkey,
      fun name v hlatest => ?_, fun room quoted => ?_⟩
    · refine hmade.apart.imp fun hab => ?_
      rw [Bool.eq_false_iff] at hab ⊢
      exact mt hp.sameKey_symm hab
    · have hget : d.table.get? p name = some v := (hmade.get?_eq hp name).trans hlatest
      refine ⟨hget, fun below willAssign => ?_⟩
      intro reading
      have hread : elementOrSlice (.ref r) name reading = .ok v reading := by
        rw [elementOrSlice_dict (m := reading) hr name, hget]
      exact getIndex_of_element (q := reading) willAssign rfl hread rfl
    · rw [renderAt_dict hr]
      simp only [Heap.renderDict, hmade.get?_eq hp, p]
  · rw [insertIntoDict_refused hkey]
    exact ⟨refuses_misuse hwf .dictKey, fun below hstack => setIndex_refuses hwf hr hkey hstack⟩

/-- Makes a dict and stores under two truth values, and then under the first of them again. -/
def twiceScript : Blob :=
  let first := (({} : Blob).pushOp .pushTrue 1).pushOp .pushNil 1
  let second := (first.pushOp .pushFalse 1).pushOp .pushTrue 1
  let again := (second.pushOp .pushTrue 1).pushOp .pushOne 1
  (again.pushOp .makeDict 1).pushShort 3 1

/-- What the script stores. -/
def twiceStores : List (Value × Value) :=
  [(.bool true, .nil), (.bool false, .bool true), (.bool true, .number 1)]

/-- The instructions of the script that push keys and values, each with what it pushes. -/
def twicePushes : List (Opcode × Value) :=
  [(.pushTrue, .bool true), (.pushNil, .nil), (.pushFalse, .bool false), (.pushTrue, .bool true),
    (.pushTrue, .bool true), (.pushOne, .number 1)]

theorem check_twiceScript (h : Heap) : Validation.check h twiceScript = .ok () := by cbv

theorem opcode_twiceScript : ∀ n < 6,
    (twiceScript.byteAt? n).bind Opcode.ofByte? = twicePushes[n]?.map Prod.fst := by decide

theorem instruction_push (host : Host) {q : Machine} {f : Frame} {rest : List Frame}
    (hframes : q.frames = f :: rest) {op : Opcode} {v : Value} (hop : q.opcode? = some op)
    (hpush : (op, v) ∈ twicePushes) : ∃ q', instruction host q = .ok none q' ∧
      q'.stack = q.stack.push v ∧ q'.frames = { f with ip := f.ip + 1 } :: rest := by
  have hexecute : execute host f.ip op (q.atOffset (f.ip + 1)) = .ok none
      { q.atOffset (f.ip + 1) with stack := q.stack.push v } := by
    simp only [twicePushes, List.mem_cons, Prod.mk.injEq, List.not_mem_nil, or_false] at hpush
    rcases hpush with ⟨rfl, rfl⟩ | ⟨rfl, rfl⟩ | ⟨rfl, rfl⟩ | ⟨rfl, rfl⟩ | ⟨rfl, rfl⟩ | ⟨rfl, rfl⟩ <;>
      rfl
  exact ⟨_, instruction_eq_ok hframes hop hexecute, rfl, frames_atOffset hframes (f.ip + 1)⟩

/-- Up to where the dict is made, the script has pushed keys and values and stored nothing. -/
theorem exists_pushed (host : Host) {n : Nat} (hn : n ≤ 6) : ∃ q f callee,
    ReachedWith host {} q (fun _ => some []) ∧ q.frames = [f] ∧ f.proto.blob = twiceScript ∧
      f.ip = n ∧ q.stack = (callee :: (twicePushes.take n).map Prod.snd).toArray := by
  induction n with
  | zero =>
    have hentered : ReachedWith host {} _ _ := .act .new (.enter (.script twiceScript))
      ⟨⟨rfl, check_twiceScript _⟩, fun r hr => absurd hr List.not_mem_nil⟩
    exact ⟨_, _, _, hentered, rfl, rfl, rfl, rfl⟩
  | succ n ih =>
    obtain ⟨q, f, callee, hq, hframes, hblob, hip, hstack⟩ := ih (Nat.le_of_succ_le hn)
    obtain ⟨⟨op, v⟩, hpush⟩ : ∃ p, twicePushes[n]? = some p := ⟨_, List.getElem?_eq_getElem hn⟩
    have hmem : (op, v) ∈ twicePushes := List.mem_of_getElem? hpush
    have hop : q.opcode? = some op := by
      rw [opcode?_eq hframes, hblob, hip, opcode_twiceScript n hn, hpush]
      rfl
    obtain ⟨q', hok, hstack', hframes'⟩ := instruction_push host hframes hop hmem
    have hplain : ∀ p ∈ twicePushes, p.1 ∉ dictOps := by decide
    have hnothing : Activity.instruction.dictWork q = [] :=
      dictWork_of_other fun other hother hsame =>
        hplain _ hmem (Option.some.inj (hop.symm.trans hsame) ▸ hother)
    have hact := hq.act .instruction ⟨trivial, nofun⟩
    rw [hnothing, Activity.perform, hok] at hact
    refine ⟨q', _, callee, hact, hframes', hblob, congrArg (· + 1) hip, ?_⟩
    rw [hstack', hstack, List.push_toArray, List.take_add_one, hpush, List.map_append]
    rfl

/-- The dict is made of the six values on the stack. -/
theorem twice_of_stack (host : Host) {q : Machine} {f : Frame} {rest : List Frame} {callee : Value}
    (hwf : q.heap.WellFormed) (hframes : q.frames = f :: rest) (hblob : f.proto.blob = twiceScript)
    (hip : f.ip = 6)
    (hstack : q.stack =
      #[callee, .bool true, .nil, .bool false, .bool true, .bool true, .number 1]) :
    let r := (q.heap.alloc (.dict {})).1
    q.dictWork = .make r :: twiceStores.map (fun s => .store r s.1 s.2) ∧
      (final (instruction host q)).heap = q.dictWork.foldl Heap.perform q.heap := by
  intro r
  have hop : q.opcode? = some .makeDict := by
    rw [opcode?_eq hframes, hblob, hip]
    rfl
  have hshort : f.proto.blob.shortAt? (f.ip + 1) = some 3 := by
    rw [hblob, hip]
    rfl
  constructor
  · rw [dictWork_makeDict hframes hop, hshort]
    show q.makeWork 3 = _
    rw [makeWork, hstack]
    rfl
  · have hcount : (3 : UInt16).toNat * 2 ≤ q.stack.size := by
      rw [hstack]
      exact Nat.le_of_ble_eq_true rfl
    have hmade : ∃ q', instruction host q = .ok none q' ∧
        q'.heap = q.dictWork.foldl Heap.perform q.heap :=
      instruction_makeDict hwf hframes hop hshort hcount (by rw [hstack]; rfl)
    obtain ⟨q', hok, hheap⟩ := hmade
    rw [hok]
    exact hheap

/-- A dict into which something was stored is there afterwards, and so is its record. -/
theorem record_stores (r : Ref) (stores : List (Value × Value)) :
    ∀ {h : Heap} {σ : DictRecord} {d : Dict} {before : List (Value × Value)},
      h.get? r = some (.dict d) → σ r = some before →
      let work := stores.map fun s => DictAction.store r s.1 s.2
      work.foldl DictRecord.after σ r = some (before ++ stores) ∧
        ∃ d', (work.foldl Heap.perform h).get? r = some (.dict d') := by
  induction stores with
  | nil =>
    intro h σ d before hr hσ
    exact ⟨by simpa using hσ, d, hr⟩
  | cons s stores ih =>
    intro h σ d before hr hσ
    have hstored : (h.perform (.store r s.1 s.2)).get? r = some (.dict _) :=
      Heap.get?_storeInDict hr s.1 s.2
    have hrecord : σ.after (.store r s.1 s.2) r = some (before ++ [s]) := by
      rw [DictRecord.after, Function.update_self, hσ]
      rfl
    simpa using ih hstored hrecord

/-- A dict that is made and stored into is there afterwards, and so is its record. -/
theorem record_made {h : Heap} (hwf : h.WellFormed) (σ : DictRecord)
    (stores : List (Value × Value)) :
    let r := (h.alloc (.dict {})).1
    let work := .make r :: stores.map fun s => DictAction.store r s.1 s.2
    work.foldl DictRecord.after σ r = some stores ∧
      ∃ d, (work.foldl Heap.perform h).get? r = some (.dict d) := by
  intro r work
  have hmade : (h.perform (.make r)).get? r = some (.dict {}) :=
    Heap.get?_alloc_self hwf (.dict {})
  have hrecord : σ.after (.make r) r = some [] := by rw [DictRecord.after, Function.update_self]
  exact record_stores r stores hmade hrecord

/-- The first key stays in front, and is shown with the value that was stored last. -/
theorem dicts_keep_insertion_order_twiceScript :
    ∃ m σ r d, ReachedWith (Host.stock .closed) {} m σ ∧ m.heap.get? r = some (.dict d) ∧
      σ r = some [(.bool true, .nil), (.bool false, .bool true), (.bool true, .number 1)] ∧
      d.keys.toList = [.bool true, .bool false] ∧
      d.table.get? m.heap.pool (.bool true) = some (.number 1) ∧
      d.table.get? m.heap.pool (.bool false) = some (.bool true) := by
  obtain ⟨q, f, callee, hbefore, hframes, hblob, hip, hstack⟩ :=
    exists_pushed (Host.stock .closed) (le_refl 6)
  have hwf : q.heap.WellFormed :=
    (hbefore.describes Host.orderly_stock Host.leavesDicts_stock).1.heap
  obtain ⟨hwork, hheap⟩ := twice_of_stack (Host.stock .closed) hwf hframes hblob hip hstack
  obtain ⟨hrecord, d, hd⟩ := record_made hwf (fun _ => some []) twiceStores
  rw [← hwork] at hrecord hd
  rw [← hheap] at hd
  have hafter := hbefore.act .instruction ⟨trivial, nofun⟩
  obtain ⟨hdicts, -⟩ := dicts_keep_insertion_order Host.orderly_stock Host.leavesDicts_stock hafter
  obtain ⟨hkeys, -, -, -, hread, -⟩ := hdicts _ d _ hd hrecord (by decide)
  exact ⟨_, _, _, d, hafter, hd, hrecord, hkeys, (hread (.bool true) (.number 1) rfl).1,
    (hread (.bool false) (.bool true) rfl).1⟩

end Machine

end ScriptMachine
