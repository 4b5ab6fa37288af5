import ScriptMachine.Machine.Collection
import ScriptMachine.Proofs.Heap.Tracing
import ScriptMachine.Proofs.Table.References

/-!
Collections of a machine are exact. Between collections nothing is shaded; a collection then keeps
what can be reached from the roots, in its slot and with its contents, releases everything else,
and leaves the rest of the machine alone.
-/

namespace ScriptMachine

namespace Heap

/-- What a collection does to a heap if it keeps exactly what `kept` says. -/
structure Collected (before : Heap) (kept : Ref → Prop) (released : Released) (after : Heap) :
    Prop where
  objects : ∀ i o, after.objects.get? i = some o ↔
    before.objects.get? i = some o ∧ kept (.object i)
  texts : ∀ i x, after.pool.arena.get? i = some x ↔
    before.pool.arena.get? i = some x ∧ kept (.text i)
  releasedObjects : released.objects =
    {i | before.Occupied (.object i) ∧ ¬ kept (.object i)}.ncard
  releasedTexts : released.texts =
    {i | before.Occupied (.text i) ∧ ¬ kept (.text i)}.ncard
  rest : after.AtRest

theorem AtRest.collected {h : Heap} (hrest : h.AtRest) (roots : List Ref) :
    Collected h (Reachable h roots) (h.collect roots).1 (h.collect roots).2 := by
  obtain ⟨hsame, hgray, hmarked⟩ := hrest.isMarked_trace roots
  have hobjects (i : Nat) := hmarked (.object i)
  have htexts (i : Nat) := hmarked (.text i)
  refine ⟨?_, ?_, ?_, ?_, atRest_sweep hgray⟩
  · intro i o
    refine Arena.get?_sweep.trans ?_
    rw [hsame.objects]
    apply and_congr_right
    intro ho
    refine (hobjects i).trans (and_iff_right ?_)
    rw [Occupied, ho, Option.isSome_some]
  · intro i x
    refine Arena.get?_sweep.trans ?_
    rw [hsame.texts]
    apply and_congr_right
    intro hx
    refine (htexts i).trans (and_iff_right ?_)
    rw [Occupied, hx, Option.isSome_some]
  · refine (Arena.length_unreached_eq_ncard _).trans (congrArg Set.ncard ?_)
    ext i
    have hoccupied := hsame.occupied_iff (.object i)
    have hreached := hobjects i
    simp only [Occupied, isMarked] at hoccupied hreached
    simp only [Set.mem_ofPred_eq, Occupied, hoccupied, hreached]
    tauto
  · refine (Arena.length_unreached_eq_ncard _).trans (congrArg Set.ncard ?_)
    ext i
    have hoccupied := hsame.occupied_iff (.text i)
    have hreached := htexts i
    simp only [Occupied, isMarked, Pool.isMarked] at hoccupied hreached
    simp only [Set.mem_ofPred_eq, Occupied, hoccupied, hreached]
    tauto

end Heap

/-- An object refers to what it names itself, and to what its values and tables are. -/
inductive Object.Refers : Object → Ref → Prop where
  | constant {proto : Prototype} {r : Ref} (hr : .ref r ∈ proto.blob.constants) :
      Refers (.function proto) r
  | code (c : Closure) : Refers (.closure c) c.function
  | captured {c : Closure} {r : Ref} (hr : r ∈ c.upvalues) : Refers (.closure c) r
  | closed (r : Ref) : Refers (.upvalue (.closed (.ref r))) r
  | receiver {b : BoundMethod} {r : Ref} (hr : b.receiver = .ref r) : Refers (.bound b) r
  | method {b : BoundMethod} {r : Ref} (hr : b.method = .ref r) : Refers (.bound b) r
  | superclass {c : Class} {r : Ref} (hr : c.superclass = some r) : Refers (.cls c) r
  | methods {c : Class} {r : Ref} (hr : c.methods.Mentions r) : Refers (.cls c) r
  | staticMethods {c : Class} {r : Ref} (hr : c.staticMethods.Mentions r) : Refers (.cls c) r
  | defaults {c : Class} {r : Ref} (hr : c.defaults.Mentions r) : Refers (.cls c) r
  | statics {c : Class} {r : Ref} (hr : c.statics.Mentions r) : Refers (.cls c) r
  | initializer {c : Class} {r : Ref} (hr : c.constructor? = some (.ref r)) : Refers (.cls c) r
  | ofClass (i : Instance) : Refers (.inst i) i.cls
  | field {i : Instance} {r : Ref} (hr : i.fields.Mentions r) : Refers (.inst i) r
  | element {items : Array Value} {r : Ref} (hr : .ref r ∈ items) : Refers (.array items) r
  | key {d : Dict} {r : Ref} (hr : .ref r ∈ d.keys) : Refers (.dict d) r
  | entry {d : Dict} {r : Ref} (hr : d.table.Mentions r) : Refers (.dict d) r
  | choice {s : SwitchTable} {r : Ref} (hr : s.cases.Mentions r) : Refers (.switch s) r

/-- Tracing follows every reference of an object, and nothing else. -/
theorem Object.refers_iff {o : Object} {r : Ref} : o.Refers r ↔ r ∈ o.refs := by
  constructor
  · intro hr
    cases hr <;>
      simp_all only [refs, List.mem_append, List.mem_cons, Value.mem_refs_iff,
        Value.mem_flatMap_refs, Table.mem_refs_iff, Option.mem_toList, Option.map_some,
        Option.getD_some, or_true, true_or]
  · intro hr
    cases o with
    | function proto => exact .constant (Value.mem_flatMap_refs.1 hr)
    | closure c =>
      rcases List.mem_cons.1 hr with rfl | hr
      · exact .code c
      · exact .captured hr
    | upvalue u =>
      cases u with
      | opened slot => cases hr
      | closed v =>
        obtain rfl := Value.mem_refs_iff.1 hr
        exact .closed r
    | native n => cases hr
    | bound b =>
      rcases List.mem_append.1 hr with hr | hr
      · exact .receiver (Value.mem_refs_iff.1 hr)
      · exact .method (Value.mem_refs_iff.1 hr)
    | cls c =>
      simp only [refs, List.mem_append, Option.mem_toList, Table.mem_refs_iff,
        Value.mem_optional_refs, or_assoc] at hr
      rcases hr with hr | hr | hr | hr | hr | hr
      · exact .superclass hr
      · exact .methods hr
      · exact .staticMethods hr
      · exact .defaults hr
      · exact .statics hr
      · exact .initializer hr
    | inst i =>
      rcases List.mem_cons.1 hr with rfl | hr
      · exact .ofClass i
      · exact .field (Table.mem_refs_iff.1 hr)
    | array items => exact .element (Value.mem_flatMap_refs.1 hr)
    | dict d =>
      rcases List.mem_append.1 hr with hr | hr
      · exact .key (Value.mem_flatMap_refs.1 hr)
      · exact .entry (Table.mem_refs_iff.1 hr)
    | range x => cases hr
    | switch s => exact .choice (Table.mem_refs_iff.1 hr)

theorem Completion.value?_eq_some {c : Completion} {v : Value} :
    c.value? = some v ↔ (∃ handler, c = .handle handler v) ∨ c = .rethrow v ∨ c = .giveBack v := by
  cases c <;> simp [value?]

namespace Machine

/-- The references that a machine itself holds. -/
inductive IsRoot (m : Machine) (r : Ref) : Prop where
  | stack (hr : .ref r ∈ m.stack)
  | frame {f : Frame} (hf : f ∈ m.frames) (hr : f.closure = r)
  | openUpvalue (hr : r ∈ m.openUpvalues)
  | global (hr : m.globals.Mentions r)
  | filter {g : Region} (hg : g ∈ m.regions) (hr : g.filter? = some r)
  | handled {p : Pending} (hp : p ∈ m.completions) {handler : Nat}
      (hr : p.completion = .handle handler (.ref r))
  | rethrown {p : Pending} (hp : p ∈ m.completions) (hr : p.completion = .rethrow (.ref r))
  | returned {p : Pending} (hp : p ∈ m.completions) (hr : p.completion = .giveBack (.ref r))
  | raised (hr : m.raised? = some (.ref r))
  | exception (k : ExceptionKind) (hr : m.builtins.exception k = r)
  | primitive (p : Primitive) (hr : m.builtins.primitive p = r)
  | pinned (hr : .ref r ∈ m.pinned)
  | message (hr : r = m.builtins.message)
  | stacktrace (hr : r = m.builtins.stacktrace)

/-- What a machine can reach through the references of objects. -/
inductive Reaches (m : Machine) : Ref → Prop where
  | root {r : Ref} (hr : m.IsRoot r) : Reaches m r
  | step {r s : Ref} {o : Object} (hr : Reaches m r) (hobject : m.heap.get? r = some o)
      (hs : o.Refers s) : Reaches m s

theorem mem_roots_iff {m : Machine} {r : Ref} : r ∈ m.roots ↔
    (∃ v ∈ m.stack, r ∈ v.refs) ∨ (∃ f ∈ m.frames, f.closure = r) ∨ r ∈ m.openUpvalues ∨
    r ∈ m.globals.refs ∨ (∃ g ∈ m.regions, g.filter? = some r) ∨
    (∃ p ∈ m.completions, ∃ v, p.completion.value? = some v ∧ r ∈ v.refs) ∨
    (∃ v, m.raised? = some v ∧ r ∈ v.refs) ∨ (∃ k, m.builtins.exception k = r) ∨
    (∃ p, m.builtins.primitive p = r) ∨ (∃ v ∈ m.pinned, r ∈ v.refs) ∨
    r = m.builtins.message ∨ r = m.builtins.stacktrace := by
  have hoptional (v? : Option Value) :
      r ∈ (v?.map Value.refs).getD [] ↔ ∃ v, v? = some v ∧ r ∈ v.refs := by cases v? <;> simp
  have hkinds (k : ExceptionKind) : k ∈ ExceptionKind.all := by cases k <;> decide
  have hprimitives (p : Primitive) : p ∈ Primitive.all := by cases p <;> decide
  simp only [roots, List.mem_append, List.mem_flatMap, List.mem_map, List.mem_filterMap,
    List.mem_cons, List.not_mem_nil, or_false, Array.mem_toList_iff, hoptional, hkinds, hprimitives,
    true_and, or_assoc]

theorem isRoot_of_completion {m : Machine} {p : Pending} (hp : p ∈ m.completions) {r : Ref}
    (hr : p.completion.value? = some (.ref r)) : m.IsRoot r := by
  rcases Completion.value?_eq_some.1 hr with ⟨handler, hr⟩ | hr | hr
  · exact .handled hp hr
  · exact .rethrown hp hr
  · exact .returned hp hr

/-- A collection starts from what the machine itself holds, and from nothing else. -/
theorem isRoot_iff {m : Machine} {r : Ref} : m.IsRoot r ↔ r ∈ m.roots := by
  rw [mem_roots_iff]
  simp only [Value.mem_refs_iff, Table.mem_refs_iff, exists_eq_right]
  constructor
  · intro hr
    have hcompletion {p : Pending} (hp : p ∈ m.completions)
        (hr : p.completion.value? = some (.ref r)) :
        ∃ p ∈ m.completions, p.completion.value? = some (.ref r) := ⟨p, hp, hr⟩
    cases hr with
    | handled hp hr =>
      have hvalue := hcompletion hp (Completion.value?_eq_some.2 (Or.inl ⟨_, hr⟩))
      tauto
    | rethrown hp hr =>
      have hvalue := hcompletion hp (Completion.value?_eq_some.2 (Or.inr (Or.inl hr)))
      tauto
    | returned hp hr =>
      have hvalue := hcompletion hp (Completion.value?_eq_some.2 (Or.inr (Or.inr hr)))
      tauto
    | _ => grind
  · rintro (hr | ⟨f, hf, hr⟩ | hr | hr | ⟨g, hg, hr⟩ | ⟨p, hp, hr⟩ | hr | ⟨k, hr⟩ | ⟨p, hr⟩ | hr |
      hr | hr)
    · exact .stack hr
    · exact .frame hf hr
    · exact .openUpvalue hr
    · exact .global hr
    · exact .filter hg hr
    · exact isRoot_of_completion hp hr
    · exact .raised hr
    · exact .exception k hr
    · exact .primitive p hr
    · exact .pinned hr
    · exact .message hr
    · exact .stacktrace hr

theorem reaches_iff {m : Machine} {r : Ref} : m.Reaches r ↔ Heap.Reachable m.heap m.roots r := by
  constructor
  · intro hr
    induction hr with
    | root hr => exact .root (isRoot_iff.1 hr)
    | step _ hobject hs ih => exact ih.step hobject (Object.refers_iff.1 hs)
  · intro hr
    induction hr with
    | root hr => exact .root (isRoot_iff.2 hr)
    | step _ hobject hs ih => exact ih.step hobject (Object.refers_iff.2 hs)

/-- A collection of a machine at rest is exact and changes nothing but the heap; a well-formed heap
stays well-formed, with the index of its texts; and tracing ends on every heap. -/
theorem collect_exact (m : Machine) (hrest : m.heap.AtRest) :
    Heap.Collected m.heap m.Reaches m.collect.1 m.collect.2.heap ∧
      m.collect.2 = { m with heap := m.collect.2.heap } ∧
      (m.heap.WellFormed → m.collect.2.heap.WellFormed) ∧
      ∀ g : Heap, Heap.Traces g g.trace := by
  have hreaches : m.Reaches = Heap.Reachable m.heap m.roots := by
    ext r
    exact reaches_iff
  refine ⟨?_, rfl, ?_, Heap.traces_trace⟩
  · rw [hreaches]
    exact hrest.collected m.roots
  · intro hwf
    exact hwf.collect m.roots

/-- A machine with the first of two arrays on its stack that refer to each other, and with nothing
that leads to the two beside them, which do so too. -/
def twoCycles : Machine :=
  { heap :=
      { objects :=
          { slots :=
              #[some ⟨.cls { name := "Error" }, 208, .white⟩,
                some ⟨.array #[.ref (.object 2)], 224, .white⟩,
                some ⟨.array #[.ref (.object 1)], 224, .white⟩,
                some ⟨.array #[.ref (.object 4)], 224, .white⟩,
                some ⟨.array #[.ref (.object 3)], 224, .white⟩]
            live := 5 }
        pool :=
          { arena :=
              { slots :=
                  #[some ⟨⟨"message", Hash.text "message"⟩, 31, .white⟩,
                    some ⟨⟨"stacktrace", Hash.text "stacktrace"⟩, 34, .white⟩]
                live := 2 }
            index := .ofList [("message", 0), ("stacktrace", 1)] } }
    stack := #[.ref (.object 1)]
    builtins :=
      { message := .text 0
        stacktrace := .text 1
        primitive := fun _ => .object 0
        exception := fun _ => .object 0 } }

theorem reaches_twoCycles {r : Ref} : twoCycles.Reaches r ↔
    r ∈ [Ref.object 0, .object 1, .object 2, .text 0, .text 1] := by
  have hroots : ∀ s ∈ twoCycles.roots, s ∈ [Ref.object 0, .object 1, .object 2, .text 0, .text 1] :=
    by decide
  constructor
  · intro hr
    induction hr with
    | root hr => exact hroots _ (isRoot_iff.1 hr)
    | step hr hobject hs ih =>
      simp only [List.mem_cons, List.not_mem_nil, or_false] at ih
      rcases ih with rfl | rfl | rfl | rfl | rfl <;> cases hobject
      · cases Object.refers_iff.1 hs
      · obtain rfl := List.mem_singleton.1 (Object.refers_iff.1 hs)
        decide
      · obtain rfl := List.mem_singleton.1 (Object.refers_iff.1 hs)
        decide
  · intro hr
    have hfirst : twoCycles.Reaches (.object 1) :=
      .root (.stack (Array.mem_singleton.2 rfl))
    simp only [List.mem_cons, List.not_mem_nil, or_false] at hr
    rcases hr with rfl | rfl | rfl | rfl | rfl
    · exact .root (.primitive .number rfl)
    · exact hfirst
    · exact hfirst.step rfl (.element (Array.mem_singleton.2 rfl))
    · exact .root (.message rfl)
    · exact .root (.stacktrace rfl)

theorem atRest_twoCycles : twoCycles.heap.AtRest := by
  refine ⟨rfl, ?_, ?_⟩
  · intro i c hc
    have hmem := Array.mem_of_getElem? (Arena.cell?_eq_some.1 hc)
    simp only [twoCycles, List.mem_toArray, List.mem_cons, Option.some.injEq,
      List.not_mem_nil, or_false] at hmem
    rcases hmem with rfl | rfl | rfl | rfl | rfl <;> rfl
  · intro i c hc
    have hmem := Array.mem_of_getElem? (Arena.cell?_eq_some.1 hc)
    simp only [twoCycles, List.mem_toArray, List.mem_cons, Option.some.injEq,
      List.not_mem_nil, or_false] at hmem
    rcases hmem with rfl | rfl <;> rfl

/-- The class and the first two arrays stay where they were; the other two arrays go. -/
theorem collect_exact_twoCycles :
    twoCycles.heap.AtRest ∧ twoCycles.collect.1 = { objects := 2, texts := 0 } ∧
      (∀ i ≤ 2, twoCycles.collect.2.heap.objects.get? i = twoCycles.heap.objects.get? i) ∧
      ∀ i > 2, twoCycles.collect.2.heap.objects.get? i = none := by
  have hexact := (collect_exact twoCycles atRest_twoCycles).1
  have hobjects (i : Nat) : twoCycles.Reaches (.object i) ↔ i ≤ 2 := by
    rw [reaches_twoCycles]
    simp only [List.mem_cons, Ref.object.injEq, reduceCtorEq, List.not_mem_nil, or_false]
    omega
  have hgone : {i | twoCycles.heap.Occupied (.object i) ∧ ¬ twoCycles.Reaches (.object i)} =
      {3, 4} := by
    ext i
    simp only [Set.mem_ofPred_eq, hobjects, Set.mem_insert_iff, Set.mem_singleton_iff]
    constructor
    · rintro ⟨hoccupied, hreaches⟩
      obtain ⟨o, ho⟩ := Option.isSome_iff_exists.1 hoccupied
      have hlt : i < 5 := Arena.lt_size_of_get? ho
      omega
    · rintro (rfl | rfl) <;> exact ⟨rfl, by decide⟩
  have hnone : {i | twoCycles.heap.Occupied (.text i) ∧ ¬ twoCycles.Reaches (.text i)} = ∅ := by
    refine Set.eq_empty_of_forall_notMem fun i hi => hi.2 (reaches_twoCycles.2 ?_)
    obtain ⟨x, hx⟩ := Option.isSome_iff_exists.1 hi.1
    have hlt : i < 2 := Arena.lt_size_of_get? hx
    obtain rfl | rfl : i = 0 ∨ i = 1 := by omega
    · decide
    · decide
  refine ⟨atRest_twoCycles, ?_, ?_, ?_⟩
  · have hobjectCount := hexact.releasedObjects
    have htextCount := hexact.releasedTexts
    rw [hgone, Set.ncard_pair (by decide)] at hobjectCount
    rw [hnone, Set.ncard_empty] at htextCount
    rw [← hobjectCount, ← htextCount]
  · intro i hi
    ext o
    rw [hexact.objects, and_iff_left ((hobjects i).2 hi)]
  · intro i hi
    refine Option.eq_none_iff_forall_ne_some.2 fun o ho => ?_
    exact absurd ((hobjects i).1 ((hexact.objects i o).1 ho).2) (by omega)

end Machine

end ScriptMachine
