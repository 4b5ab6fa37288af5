import ScriptMachine.Proofs.Code.Operands
import ScriptMachine.Proofs.Machine.Footing.Instruction
import ScriptMachine.Proofs.Machine.UntouchedDicts

/-!
What an instruction does to dicts. It can be read off before the instruction runs: one operation
makes a dict and stores the pairs on the stack into it, up to the first key that is refused, and two
operations store one value under one key, if they come upon a dict and the key is not refused. The
instruction does this to the heap, and everything else it does leaves the dicts alone.
-/

namespace ScriptMachine

/-- Texts, numbers and truth values are keys of dicts. -/
def Value.isDictKey (key : Value) : Bool := key.isText || key.isNumber || key.isBool

/-- Something done to a dict. -/
inductive DictAction where
  /-- An empty dict is put into a slot. -/
  | make (r : Ref)
  | store (r : Ref) (key value : Value)

namespace Heap

/-- The heap after a value was stored in a dict. -/
def storeInDict (h : Heap) (r : Ref) (key value : Value) : Heap :=
  h.update r fun
    | .dict d => .dict (d.insert h.pool key value)
    | o => o

def perform (h : Heap) : DictAction → Heap
  | .make _ => (h.alloc (.dict {})).2
  | .store r key value => h.storeInDict r key value

/-- What is done to the dict in a slot when pairs of keys and values are stored one after the
other. -/
def pairWork (r : Ref) : List Value → List DictAction
  | key :: value :: rest => if key.isDictKey then .store r key value :: pairWork r rest else []
  | _ => []

variable {h : Heap} {r : Ref} {d : Dict}

theorem get?_storeInDict (hr : h.get? r = some (.dict d)) (key value : Value) :
    (h.storeInDict r key value).get? r = some (.dict (d.insert h.pool key value)) := by
  unfold storeInDict
  rw [get?_update, if_pos rfl, hr]
  rfl

end Heap

namespace Machine

variable {host : Host} {low : Prop} {m : Machine} {r : Ref} {d : Dict} {key value name v : Value}
  {distance : Nat}

/-- The value a distance below the top of the stack. -/
def top? (m : Machine) (distance : Nat) : Option Value :=
  if distance < m.stack.size then some (m.stack.getD (m.stack.size - (distance + 1)) .nil) else none

/-- What storing under a key does, if it comes upon a dict. -/
def storeWork (m : Machine) (r : Ref) (key value : Value) : List DictAction :=
  if (m.heap.get? r).any Object.isDict && key.isDictKey then [.store r key value] else []

/-- What making a dict of pairs on the stack does. -/
def makeWork (m : Machine) (count : Nat) : List DictAction :=
  let r := (m.heap.alloc (.dict {})).1
  if count * 2 ≤ m.stack.size then
    .make r :: Heap.pairWork r (m.stack.extract (m.stack.size - count * 2) m.stack.size).toList
  else []

/-- What storing the value on top at the index below does. -/
def indexWork (m : Machine) : List DictAction :=
  match m.top? 2, m.top? 1, m.top? 0 with
  | some (.ref r), some key, some value => m.storeWork r key value
  | _, _, _ => []

/-- What storing the value on top as a property of the one below does. -/
def propertyWork (m : Machine) (name : Value) : List DictAction :=
  match m.top? 1, m.top? 0 with
  | some (.ref r), some value => m.storeWork r name value
  | _, _ => []

/-- What the next instruction does to dicts. -/
def dictWork (m : Machine) : List DictAction :=
  match m.frames.head?, m.opcode? with
  | some f, some .makeDict =>
    ((f.proto.blob.shortAt? (f.ip + 1)).map fun count => m.makeWork count.toNat).getD []
  | some _, some .indexSet => m.indexWork
  | some f, some .propertySet =>
    ((f.proto.blob.constantAt? (f.ip + 1)).map m.propertyWork).getD []
  | _, _ => []

/-- An action does some work on dicts, and leaves them alone otherwise. -/
abbrev Does (low : Prop) (m : Machine) (work : List DictAction) {α : Type} (x : Exec α) : Prop :=
  GuardsAt low (work.foldl Heap.perform m.heap).LeavesDicts m x

/-- No key of the pairs is refused. -/
def acceptsPairs : List Value → Bool
  | key :: _ :: rest => key.isDictKey && acceptsPairs rest
  | _ => true

/-! The stack. -/

theorem peek_eq (m : Machine) (distance : Nat) :
    peek distance m = match m.top? distance with
      | some v => .ok v m
      | none => .error (.fault (.internal .stackUnderflow)) m := by
  unfold peek top?
  rw [get_bind]
  split <;> rfl

theorem top?_of_peek (hok : peek distance m = .ok v m) : m.top? distance = some v := by
  rw [peek_eq] at hok
  cases htop : m.top? distance with
  | some w =>
    rw [htop] at hok
    cases hok
    rfl
  | none =>
    rw [htop] at hok
    cases hok

theorem peek_of_top? (htop : m.top? distance = some v) : peek distance m = .ok v m := by
  rw [peek_eq, htop]

theorem top?_zero (m : Machine) : m.top? 0 = m.stack.back? := by
  unfold top?
  rw [Array.back?_eq_getElem?, Array.getD_eq_getD_getElem?]
  split
  · next hsize => rw [Array.getElem?_eq_getElem (by omega), Option.getD_some]
  · next hsize => rw [Array.getElem?_eq_none (by omega)]

/-- A value of the stack is one closer to the top after the topmost was popped. -/
theorem top?_pop (m : Machine) (distance : Nat) :
    ({ m with stack := m.stack.pop } : Machine).top? distance = m.top? (distance + 1) := by
  unfold top?
  simp only [Array.size_pop, Array.getD_eq_getD_getElem?, Array.getElem?_pop]
  by_cases hsize : distance + 1 < m.stack.size
  · rw [if_pos (by omega), if_pos hsize, if_pos (by omega)]
    congr 3
    omega
  · rw [if_neg (by omega), if_neg hsize]

/-! Stores. -/

theorem insertIntoDict_eq (hr : m.heap.get? r = some (.dict d)) (hkey : key.isDictKey = true)
    (value : Value) :
    insertIntoDict r key value m = .ok () { m with heap := m.heap.storeInDict r key value } := by
  unfold Value.isDictKey at hkey
  unfold insertIntoDict
  rw [if_pos hkey, get_bind, hr]
  rfl

theorem insertIntoDict_refused (hkey : key.isDictKey = false) (r : Ref) (value : Value) :
    insertIntoDict r key value = misuse .dictKey := by
  unfold insertIntoDict
  exact if_neg (Bool.eq_false_iff.1 hkey)

theorem storeWork_of_dict (hr : m.heap.get? r = some (.dict d)) (hkey : key.isDictKey = true)
    (value : Value) : m.storeWork r key value = [.store r key value] := by
  unfold storeWork
  rw [hr, hkey]
  rfl

/-- Something is done only if it is done to a dict. -/
theorem exists_dict (hwork : m.storeWork r key value ≠ []) :
    ∃ d, m.heap.get? r = some (.dict d) := by
  unfold storeWork at hwork
  split at hwork
  · next hboth =>
    obtain ⟨o, ho, hdict⟩ := (Option.any_eq_true _ _).1 (Bool.and_eq_true_iff.1 hboth).1
    cases o with
    | dict d => exact ⟨d, ho⟩
    | _ => cases hdict
  · exact absurd rfl hwork

theorem does_insertIntoDict (hr : m.heap.get? r = some (.dict d)) (key value : Value) :
    Does low m (m.storeWork r key value) (insertIntoDict r key value) := by
  cases hkey : key.isDictKey with
  | true =>
    rw [storeWork_of_dict hr hkey]
    unfold Does GuardsAt
    rw [insertIntoDict_eq hr hkey]
    exact .refl _
  | false =>
    have hnone : m.storeWork r key value = [] := by
      unfold storeWork
      rw [hkey, Bool.and_false]
      rfl
    rw [hnone, insertIntoDict_refused hkey]
    exact guards_misuse _ m (.refl _)

/-- Pairs are stored into a dict one after the other. -/
theorem does_insertPairs (r : Ref) :
    ∀ (items : List Value) (m : Machine) (d : Dict), m.heap.get? r = some (.dict d) →
      Does low m (Heap.pairWork r items) (insertPairs r items)
  | [], m, _, _ => guards_pure () m (Heap.LeavesDicts.refl m.heap)
  | [_], m, _, _ => guards_pure () m (Heap.LeavesDicts.refl m.heap)
  | key :: value :: rest, m, d, hr => by
    unfold insertPairs Heap.pairWork
    cases hkey : key.isDictKey with
    | true =>
      have hstored := Heap.get?_storeInDict hr key value
      unfold Does GuardsAt
      rw [bind_of_ok (insertIntoDict_eq hr hkey value), if_pos rfl]
      exact does_insertPairs r rest { m with heap := m.heap.storeInDict r key value } _ hstored
    | false =>
      rw [insertIntoDict_refused hkey, if_neg Bool.false_ne_true]
      exact (guards_misuse _ m (.refl _)).bindAt fun _ _ hok _ => by cases hok

/-- Pairs whose keys are accepted are all stored. -/
theorem insertPairs_ok {r : Ref} :
    ∀ (items : List Value) (m : Machine) (d : Dict), m.heap.get? r = some (.dict d) →
      acceptsPairs items = true → insertPairs r items m =
        .ok () { m with heap := (Heap.pairWork r items).foldl Heap.perform m.heap }
  | [], _, _, _, _ => rfl
  | [_], _, _, _, _ => rfl
  | key :: value :: rest, m, d, hr, haccepted => by
    obtain ⟨hkey, hrest⟩ := Bool.and_eq_true_iff.1 haccepted
    have hstored := Heap.get?_storeInDict hr key value
    unfold insertPairs Heap.pairWork
    rw [bind_of_ok (insertIntoDict_eq hr hkey value), if_pos hkey]
    exact insertPairs_ok rest { m with heap := m.heap.storeInDict r key value } _ hstored hrest

theorem makeDict_ok (hwf : m.heap.WellFormed) {count : Nat} (hcount : count * 2 ≤ m.stack.size)
    (haccepted : acceptsPairs
      (m.stack.extract (m.stack.size - count * 2) m.stack.size).toList = true) :
    makeDict count m = .ok () { m with
      heap := (m.makeWork count).foldl Heap.perform m.heap
      stack := (m.stack.shrink (m.stack.size - count * 2)).push
        (.ref (m.heap.alloc (.dict {})).1) } := by
  let taken : Machine := { m with stack := m.stack.shrink (m.stack.size - count * 2) }
  let made : Machine := { taken with heap := (m.heap.alloc (.dict {})).2 }
  have hpairs := insertPairs_ok _ made {} (Heap.get?_alloc_self hwf (.dict {})) haccepted
  unfold makeDict
  rw [bind_of_ok (takeTop_eq hcount), modifyGet_bind, bind_of_ok hpairs, makeWork, if_pos hcount]
  rfl

theorem does_makeDict (hwf : m.heap.WellFormed) (count : Nat) :
    Does low m (m.makeWork count) (makeDict count) := by
  unfold makeWork
  by_cases hcount : count * 2 ≤ m.stack.size
  · rw [if_pos hcount]
    let taken : Machine := { m with stack := m.stack.shrink (m.stack.size - count * 2) }
    let made : Machine := { taken with heap := (m.heap.alloc (.dict {})).2 }
    unfold Does GuardsAt makeDict
    rw [bind_of_ok (takeTop_eq hcount), modifyGet_bind]
    refine GuardsAt.bind (m := made) ?_ fun _ => guards_push _
    exact does_insertPairs (m.heap.alloc (.dict {})).1 _ made {} (Heap.get?_alloc_self hwf (.dict {}))
  · rw [if_neg hcount]
    refine (guards_takeTop _ m (.refl _)).bindAt fun items q hok _ => ?_
    unfold takeTop at hok
    rw [get_bind, if_neg hcount] at hok
    cases hok

/-- Storing at an index of a dict. -/
theorem setIndex_dict (hvalue : m.top? 0 = some value) (hkey : m.top? 1 = some key)
    (hreceiver : m.top? 2 = some (.ref r)) (hr : m.heap.get? r = some (.dict d)) :
    setIndex m = (do insertIntoDict r key value; drop 3; push value) m := by
  unfold setIndex
  rw [bind_of_ok (peek_of_top? hvalue), bind_of_ok (peek_of_top? hkey),
    bind_of_ok (peek_of_top? hreceiver), get_bind]
  cases r with
  | text i => cases hr
  | object i =>
    have hobject : m.heap.objects.get? i = some (.dict d) := hr
    dsimp only
    rw [hobject]

theorem does_setIndex (m : Machine) : Does low m m.indexWork setIndex := by
  by_cases hdict : ∃ r d key value, m.top? 2 = some (.ref r) ∧ m.top? 1 = some key ∧
    m.top? 0 = some value ∧ m.heap.get? r = some (.dict d)
  · obtain ⟨r, d, key, value, hreceiver, hkey, hvalue, hr⟩ := hdict
    have hwork : m.indexWork = m.storeWork r key value := by
      unfold indexWork
      rw [hreceiver, hkey, hvalue]
    rw [hwork]
    unfold Does GuardsAt
    rw [setIndex_dict hvalue hkey hreceiver hr]
    refine (does_insertIntoDict hr key value).bind fun _ => ?_
    exact (guards_drop 3).bind fun _ => guards_push value
  · have hwork : m.indexWork = [] := by
      by_contra hwork
      unfold indexWork at hwork
      split at hwork
      · next r key value hreceiver hkey hvalue =>
        obtain ⟨d, hr⟩ := exists_dict hwork
        exact hdict ⟨r, d, key, value, hreceiver, hkey, hvalue, hr⟩
      · exact hwork rfl
    rw [hwork]
    refine guardsAt_setIndex (.refl _) fun r d key value hvalue hkey hreceiver hr => ?_
    exact absurd ⟨r, d, key, value, top?_of_peek hreceiver, top?_of_peek hkey,
      top?_of_peek hvalue, hr⟩ hdict

/-- Storing a property of a dict. -/
theorem setProperty_dict (hvalue : m.top? 0 = some value) (hreceiver : m.top? 1 = some (.ref r))
    (hr : m.heap.get? r = some (.dict d)) :
    setProperty name m = (do insertIntoDict r name value; push value)
      { m with stack := m.stack.pop.pop } := by
  have hpop {q : Machine} {v : Value} (hv : q.top? 0 = some v) :
      pop q = .ok v { q with stack := q.stack.pop } := by
    unfold pop
    rw [get_bind, ← top?_zero, hv]
    rfl
  have hbelow : ({ m with stack := m.stack.pop } : Machine).top? 0 = some (.ref r) :=
    (top?_pop m 0).trans hreceiver
  unfold setProperty
  rw [bind_of_ok (hpop hvalue), bind_of_ok (hpop hbelow), get_bind]
  dsimp only
  rw [hr]

theorem does_setProperty (m : Machine) (name : Value) :
    Does low m (m.propertyWork name) (setProperty name) := by
  by_cases hdict : ∃ r d value, m.top? 1 = some (.ref r) ∧ m.top? 0 = some value ∧
    m.heap.get? r = some (.dict d)
  · obtain ⟨r, d, value, hreceiver, hvalue, hr⟩ := hdict
    have hwork : m.propertyWork name = m.storeWork r name value := by
      unfold propertyWork
      rw [hreceiver, hvalue]
    let popped : Machine := { m with stack := m.stack.pop.pop }
    have hstored : Does low popped (m.storeWork r name value) (insertIntoDict r name value) :=
      does_insertIntoDict (m := popped) hr name value
    rw [hwork]
    unfold Does GuardsAt
    rw [setProperty_dict hvalue hreceiver hr]
    exact hstored.bind fun _ => guards_push value
  · have hwork : m.propertyWork name = [] := by
      by_contra hwork
      unfold propertyWork at hwork
      split at hwork
      · next r value hreceiver hvalue =>
        obtain ⟨d, hr⟩ := exists_dict hwork
        exact hdict ⟨r, d, value, hreceiver, hvalue, hr⟩
      · exact hwork rfl
    rw [hwork]
    refine guardsAt_setProperty (.refl _) fun r d value hvalue hreceiver hr => ?_
    refine absurd ⟨r, d, value, ?_, (top?_zero m).trans hvalue, hr⟩ hdict
    rw [← top?_pop, top?_zero]
    exact hreceiver

/-! Instructions. -/

/-- What is read behind the operation decides what is done. -/
theorem does_read {α : Type} {f : Frame} {rest : List Frame} {x : Exec α}
    {read : Blob → Nat → Option α} {width : Nat} (hx : Reads x read width)
    (hframes : m.frames = f :: rest) (work : α → List DictAction) {g : α → Exec Unit}
    (hg : ∀ a, Does low (m.atOffset (f.ip + width)) (work a) (g a)) :
    Does low m (((read f.proto.blob f.ip).map work).getD []) (proceed (x >>= g)) := by
  refine GuardsAt.bind ?_ fun _ => guards_pure none
  unfold GuardsAt
  rcases hx m f rest hframes with ⟨a, ha, hok⟩ | ⟨hnone, ip, offset, d, herror⟩
  · rw [bind_of_ok hok, ha]
    exact hg a
  · rw [bind_of_error herror, hnone]
    exact ⟨.refl m.heap, trivial⟩

variable {f : Frame} {rest : List Frame}

theorem dictWork_makeDict (hframes : m.frames = f :: rest) (hop : m.opcode? = some .makeDict) :
    m.dictWork =
      ((f.proto.blob.shortAt? (f.ip + 1)).map fun count => m.makeWork count.toNat).getD [] := by
  unfold dictWork
  rw [hframes, hop]
  rfl

/-- Of pairs whose keys are accepted a dict is made. -/
theorem instruction_makeDict (hwf : m.heap.WellFormed) (hframes : m.frames = f :: rest)
    (hop : m.opcode? = some .makeDict) {count : UInt16}
    (hshort : f.proto.blob.shortAt? (f.ip + 1) = some count)
    (hcount : count.toNat * 2 ≤ m.stack.size) (haccepted : acceptsPairs
      (m.stack.extract (m.stack.size - count.toNat * 2) m.stack.size).toList = true) :
    ∃ q, instruction host m = .ok none q ∧ q.heap = m.dictWork.foldl Heap.perform m.heap := by
  have hread : fetchShort (m.atOffset (f.ip + 1)) = .ok count (m.atOffset (f.ip + 3)) :=
    reads_fetchShort.eq_ok hframes hshort
  have hmade := makeDict_ok (m := m.atOffset (f.ip + 3)) hwf hcount haccepted
  have hexecute : execute host f.ip .makeDict (m.atOffset (f.ip + 1)) = .ok none _ :=
    (proceed_bind hread _).trans (bind_of_ok hmade _)
  rw [dictWork_makeDict hframes hop, hshort]
  exact ⟨_, instruction_eq_ok hframes hop hexecute, rfl⟩

theorem dictWork_indexSet (hframes : m.frames = f :: rest) (hop : m.opcode? = some .indexSet) :
    m.dictWork = m.indexWork := by
  unfold dictWork
  rw [hframes, hop]
  rfl

theorem dictWork_propertySet (hframes : m.frames = f :: rest)
    (hop : m.opcode? = some .propertySet) :
    m.dictWork = ((f.proto.blob.constantAt? (f.ip + 1)).map m.propertyWork).getD [] := by
  unfold dictWork
  rw [hframes, hop]
  rfl

theorem dictWork_of_other (hother : ∀ op ∈ dictOps, m.opcode? ≠ some op) : m.dictWork = [] := by
  unfold dictWork
  split
  · next hop => exact absurd hop (hother .makeDict (by decide))
  · next hop => exact absurd hop (hother .indexSet (by decide))
  · next hop => exact absurd hop (hother .propertySet (by decide))
  · rfl

/-- An instruction does what can be read off before it runs, and leaves the dicts alone
otherwise. -/
theorem does_instruction (hhost : host.LeavesDicts) (hwf : m.heap.WellFormed) :
    Does m.Underfed m m.dictWork (instruction host) := by
  by_cases hother : ∀ op ∈ dictOps, m.opcode? ≠ some op
  · rw [dictWork_of_other hother]
    exact guardsAt_instruction_leavesDicts hhost (.refl m.heap) hother
  push Not at hother
  obtain ⟨op, hmem, hop⟩ := hother
  obtain ⟨f, rest, hframes⟩ := exists_frame_of_opcode hop
  have hbehind : (m.atOffset (f.ip + 1)).frames = { f with ip := f.ip + 1 } :: rest :=
    frames_atOffset hframes _
  unfold Does GuardsAt
  rw [instruction_eq hframes hop]
  refine GuardsAt.throwing ?_ none
  simp only [dictOps, List.mem_cons, List.not_mem_nil, or_false] at hmem
  rcases hmem with rfl | rfl | rfl
  · rw [dictWork_makeDict hframes hop]
    exact does_read reads_fetchShort hbehind (fun count => m.makeWork count.toNat)
      fun count => does_makeDict (m := (m.atOffset _).atOffset _) hwf count.toNat
  · rw [dictWork_indexSet hframes hop]
    exact GuardsAt.bind (does_setIndex (m.atOffset (f.ip + 1))) fun _ => guards_pure none
  · rw [dictWork_propertySet hframes hop]
    exact does_read reads_fetchConstant hbehind m.propertyWork
      fun name => does_setProperty ((m.atOffset _).atOffset _) name

end Machine

end ScriptMachine
