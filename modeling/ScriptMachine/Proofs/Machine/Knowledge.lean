import ScriptMachine.Proofs.Machine.Sessions
import ScriptMachine.Proofs.Table.References

/-!
What is known within a stretch: the references held at its beginning, those passed to it and those
handed out since. A world grows along its stretch, and what was known stays known.
-/

namespace ScriptMachine

/-- Data with references in it. -/
class Linked (α : Type) where
  links : α → List Ref := fun _ => []

namespace Linked

variable {α : Type} [Linked α]

instance : Linked Unit := {}
instance : Linked Nat := {}
instance : Linked Bool := {}
instance : Linked Char := {}
instance : Linked Float := {}
instance : Linked UInt8 := {}
instance : Linked UInt16 := {}
instance : Linked Ref := ⟨fun r => [r]⟩
instance : Linked Value := ⟨Value.refs⟩
instance : Linked Table := ⟨Table.refs⟩
instance : Linked Entry := ⟨fun e => e.key.refs ++ e.value.refs⟩
instance : Linked Object := ⟨Object.refs⟩
instance : Linked Frame := ⟨fun f => f.closure :: f.proto.blob.constants.toList.flatMap Value.refs⟩
instance : Linked (Option α) := ⟨fun a? => (a?.map links).getD []⟩
instance : Linked (List α) := ⟨fun as => as.flatMap links⟩
instance : Linked (Array α) := ⟨fun as => as.toList.flatMap links⟩

end Linked

namespace Machine

/-- A stretch with what was handed out in it so far, and the functions and closures there are. -/
structure World where
  stretch : Stretch
  created : List Ref
  code : Ref → Object → Prop

namespace World

/-- A reference was held at the beginning of the stretch, passed to it or handed out in it. -/
def Has (w : World) (r : Ref) : Prop :=
  w.stretch.start.Held r ∨ r ∈ w.stretch.passed ∨ r ∈ w.created

def Knows {α : Type} [Linked α] (w : World) (a : α) : Prop := ∀ r ∈ Linked.links a, w.Has r

/-- A later point of the same stretch. -/
structure Le (w w' : World) : Prop where
  stretch : w'.stretch = w.stretch
  created : ∀ r ∈ w.created, r ∈ w'.created
  code : ∀ r o, w.code r o → w'.code r o

instance : Preorder World where
  le := Le
  le_refl _ := ⟨rfl, fun _ hr => hr, fun _ _ ho => ho⟩
  le_trans _ _ _ huv hvw :=
    ⟨hvw.stretch.trans huv.stretch, fun r hr => hvw.created r (huv.created r hr),
      fun r o ho => hvw.code r o (huv.code r o ho)⟩

variable {w w' : World}

theorem Has.mono {r : Ref} (hr : w.Has r) (hle : w ≤ w') : w'.Has r := by
  rcases hr with hheld | hpassed | hcreated
  · exact Or.inl (by rwa [hle.stretch])
  · exact Or.inr (Or.inl (by rwa [hle.stretch]))
  · exact Or.inr (Or.inr (hle.created r hcreated))

section Linked

variable {α : Type} [Linked α]

theorem Knows.mono {a : α} (ha : w.Knows a) (hle : w ≤ w') : w'.Knows a :=
  fun r hr => (ha r hr).mono hle

/-- Data without references. -/
theorem knows_plain {a : α} (h : Linked.links a = []) : w.Knows a := by
  intro r hr
  rw [h] at hr
  cases hr

@[simp]
theorem knows_none : w.Knows (none : Option α) := knows_plain rfl

@[simp]
theorem knows_some {a : α} : w.Knows (some a) ↔ w.Knows a := Iff.rfl

theorem knows_list {as : List α} : w.Knows as ↔ ∀ a ∈ as, w.Knows a := by
  refine ⟨fun h a ha r hr => h r (List.mem_flatMap.2 ⟨a, ha, hr⟩), fun h r hr => ?_⟩
  obtain ⟨a, ha, hmem⟩ := List.mem_flatMap.1 hr
  exact h a ha r hmem

theorem knows_array {as : Array α} : w.Knows as ↔ ∀ a ∈ as, w.Knows a := by
  have h : w.Knows as ↔ w.Knows as.toList := Iff.rfl
  rw [h, knows_list]
  simp only [Array.mem_toList_iff]

end Linked

@[simp]
theorem knows_ref {r : Ref} : w.Knows (Value.ref r) ↔ w.Has r := by
  simp [Knows, Linked.links, Value.refs, Value.ref?]

@[simp]
theorem knows_reference {r : Ref} : w.Knows r ↔ w.Has r := by simp [Knows, Linked.links]

@[simp]
theorem knows_nil : w.Knows Value.nil := knows_plain rfl

@[simp]
theorem knows_bool {b : Bool} : w.Knows (Value.bool b) := knows_plain rfl

@[simp]
theorem knows_number {x : Float} : w.Knows (Value.number x) :=
  knows_plain rfl

theorem knows_entry {e : Entry} : w.Knows e ↔ w.Knows e.key ∧ w.Knows e.value :=
  List.forall_mem_append

theorem knows_getD {vs : Array Value} (h : ∀ v ∈ vs, w.Knows v) (i : Nat) :
    w.Knows (vs.getD i .nil) := ArraySlots.getD_of_forall h knows_nil i

/-! Objects and tables. -/

@[simp]
theorem knows_closure {c : Closure} :
    w.Knows (Object.closure c) ↔ w.Has c.function ∧ ∀ r ∈ c.upvalues, w.Has r := List.forall_mem_cons

@[simp]
theorem knows_opened {slot : Nat} : w.Knows (Object.upvalue (.opened slot)) :=
  knows_plain rfl

@[simp]
theorem knows_closed {v : Value} : w.Knows (Object.upvalue (.closed v)) ↔ w.Knows v := Iff.rfl

@[simp]
theorem knows_native {n : NativeFunction} : w.Knows (Object.native n) :=
  knows_plain rfl

@[simp]
theorem knows_bound {b : BoundMethod} :
    w.Knows (Object.bound b) ↔ w.Knows b.receiver ∧ w.Knows b.method := List.forall_mem_append

@[simp]
theorem knows_inst {i : Instance} : w.Knows (Object.inst i) ↔ w.Has i.cls ∧ w.Knows i.fields :=
  List.forall_mem_cons

@[simp]
theorem knows_items {items : Array Value} :
    w.Knows (Object.array items) ↔ ∀ v ∈ items, w.Knows v := knows_array

@[simp]
theorem knows_dict {d : Dict} :
    w.Knows (Object.dict d) ↔ (∀ v ∈ d.keys, w.Knows v) ∧ w.Knows d.table := by
  rw [← knows_array]
  exact List.forall_mem_append

@[simp]
theorem knows_range {r : Range} : w.Knows (Object.range r) :=
  knows_plain rfl

@[simp]
theorem knows_switch {s : SwitchTable} : w.Knows (Object.switch s) ↔ w.Knows s.cases := Iff.rfl

@[simp]
theorem knows_cls {c : Class} : w.Knows (Object.cls c) ↔
    w.Knows c.superclass ∧ w.Knows c.methods ∧ w.Knows c.staticMethods ∧ w.Knows c.defaults ∧
      w.Knows c.statics ∧ w.Knows c.constructor? := by
  have hsuperclass : w.Knows c.superclass ↔ ∀ r ∈ c.superclass.toList, w.Has r := by
    cases c.superclass <;> simp
  rw [hsuperclass]
  simp only [Knows, Linked.links, Object.refs, List.forall_mem_append, and_assoc]

@[simp]
theorem knows_empty : w.Knows ({} : Table) := Table.forall_refs_empty

theorem Knows.insert {t : Table} (ht : w.Knows t) (p : Pool) {key value : Value}
    (hkey : w.Knows key) (hvalue : w.Knows value) (kind : EntryKind) :
    w.Knows (t.insert p key value kind).2 := Table.forall_refs_insert p kind ht hkey hvalue

theorem Knows.set {t : Table} (ht : w.Knows t) (p : Pool) {key value : Value}
    (hkey : w.Knows key) (hvalue : w.Knows value) : w.Knows (t.set p key value) :=
  ht.insert p hkey hvalue _

theorem Knows.addAll {t other : Table} (ht : w.Knows t) (p : Pool) (hother : w.Knows other) :
    w.Knows (t.addAll p other) := Table.forall_refs_addAll p ht hother

theorem Knows.entry {t : Table} (ht : w.Knows t) {e : Entry} (he : e ∈ t.entries) : w.Knows e :=
  knows_entry.2 (Table.forall_refs.1 ht e he)

theorem Knows.get? {t : Table} (ht : w.Knows t) {p : Pool} {key v : Value}
    (hv : t.get? p key = some v) : w.Knows v := Table.known_of_get? ht hv

end World

end Machine

end ScriptMachine
