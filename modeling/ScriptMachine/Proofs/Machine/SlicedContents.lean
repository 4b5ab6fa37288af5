import ScriptMachine.Proofs.Machine.ArrayPositions

/-!
Slices of arrays and texts. A slice has what its receiver has between two cuts, whether the bounds
are operands of their own or those of a range, and leaves the receiver as it is.
-/

namespace ScriptMachine

/-- What a sliceable value has in order: the items of an array or the characters of a text. -/
inductive Contents where
  | items (xs : List Value)
  | characters (cs : List Char)

namespace Contents

def length : Contents → Nat
  | items xs => xs.length
  | characters cs => cs.length

/-- The part between the cuts of two bounds. -/
def between (lower upper : Option Int) : Contents → Contents
  | items xs => items (Slice.between lower upper xs)
  | characters cs => characters (Slice.between lower upper cs)

/-- The first two make up the third. -/
inductive Join : Contents → Contents → Contents → Prop where
  | items (xs ys : List Value) : Join (items xs) (items ys) (items (xs ++ ys))
  | characters (cs ds : List Char) :
      Join (characters cs) (characters ds) (characters (cs ++ ds))

theorem length_between (lower upper : Option Int) (c : Contents) :
    (c.between lower upper).length = Slice.last upper c.length - Slice.first lower c.length := by
  cases c with
  | items xs => exact Slice.length_between lower upper xs
  | characters cs => exact Slice.length_between lower upper cs

/-- The parts up to a bound and from it on make up the whole. -/
theorem join_between (bound : Int) (c : Contents) :
    Join (c.between none (some bound)) (c.between (some bound) none) c := by
  cases c with
  | items xs =>
    have hjoin := Join.items (Slice.between none (some bound) xs)
      (Slice.between (some bound) none xs)
    rwa [Slice.between_append_between] at hjoin
  | characters cs =>
    have hjoin := Join.characters (Slice.between none (some bound) cs)
      (Slice.between (some bound) none cs)
    rwa [Slice.between_append_between] at hjoin

end Contents

namespace Heap

variable {h : Heap} {v : Value} {c : Contents}

/-- The contents of a sliceable value. -/
def contents? (h : Heap) (v : Value) : Option Contents :=
  match h.text? v with
  | some text => some (.characters text.toList)
  | none =>
    match h.object? v with
    | some (.array items) => some (.items items.toList)
    | _ => none

theorem contents?_cases (hc : h.contents? v = some c) :
    (∃ text, h.text? v = some text ∧ c = .characters text.toList) ∨
      ∃ items, h.text? v = none ∧ h.object? v = some (.array items) ∧ c = .items items.toList := by
  unfold contents? at hc
  cases htext : h.text? v with
  | some text =>
    rw [htext] at hc
    exact Or.inl ⟨text, rfl, (Option.some.inj hc).symm⟩
  | none =>
    rw [htext] at hc
    dsimp only at hc
    split at hc
    · next items hobject => exact Or.inr ⟨items, rfl, hobject, (Option.some.inj hc).symm⟩
    · cases hc

theorem contents?_text {text : String} (htext : h.text? v = some text) :
    h.contents? v = some (.characters text.toList) := by
  rw [contents?, htext]

theorem contents?_array {items : Array Value} {r : Ref} (hr : h.get? r = some (.array items)) :
    h.contents? (.ref r) = some (.items items.toList) := by
  cases r with
  | text i => cases hr
  | object i =>
    have htext : h.text? (.ref (.object i)) = none := rfl
    have hobject : h.object? (.ref (.object i)) = some (.array items) := hr
    rw [contents?, htext]
    dsimp only
    rw [hobject]

/-- Storing an object leaves the contents of the others. -/
theorem contents?_alloc (hwf : h.WellFormed) (o : Object) (hc : h.contents? v = some c) :
    (h.alloc o).2.contents? v = some c := by
  obtain ⟨text, htext, rfl⟩ | ⟨items, -, hobject, rfl⟩ := contents?_cases hc
  · exact contents?_text htext
  · rcases v with _ | _ | _ | r
    case ref => exact contents?_array (hwf.get?_alloc_of_get? o hobject)
    all_goals cases hobject

/-- Interning a text leaves the contents of the others. -/
theorem contents?_intern (hwf : h.WellFormed) (other : String) (hc : h.contents? v = some c) :
    (h.intern other).2.contents? v = some c := by
  obtain ⟨text, htext, rfl⟩ | ⟨items, -, hobject, rfl⟩ := contents?_cases hc
  · exact contents?_text (text?_intern hwf other htext)
  · rcases v with _ | _ | _ | r
    case ref => exact contents?_array hobject
    all_goals cases hobject

end Heap

namespace Machine

variable {m q : Machine} {below : Array Value} {receiver w : Value} {c : Contents}

/-- A slice bound: nil or a number. -/
def bound : Option Float → Value
  | none => .nil
  | some x => .number x

theorem sliceBound?_bound (x : Option Float) :
    sliceBound? (bound x) = some (x.map Binary64.toWord) := by
  cases x <;> rfl

/-- A slice is read from the heap alone. Its value has the contents between the bounds, and all other
contents stay. -/
theorem slice_ok (hwf : m.heap.WellFormed) (hc : m.heap.contents? receiver = some c)
    (lower upper : Option Float) :
    ∃ w heap,
      (∀ stack, slice receiver (bound lower) (bound upper) { m with stack } =
        .ok w { m with stack, heap }) ∧
      heap.contents? w =
        some (c.between (lower.map Binary64.toWord) (upper.map Binary64.toWord)) ∧
      ∀ v d, m.heap.contents? v = some d → heap.contents? v = some d := by
  obtain ⟨text, htext, rfl⟩ | ⟨items, htext, hobject, rfl⟩ := Heap.contents?_cases hc
  · let part := String.ofList (Slice.ofList (lower.map Binary64.toWord)
      (upper.map Binary64.toWord) text.toList)
    refine ⟨.ref (m.heap.intern part).1, (m.heap.intern part).2, fun stack => ?_, ?_,
      fun v d hd => Heap.contents?_intern hwf part hd⟩
    · unfold slice
      rw [get_bind, sliceBound?_bound, sliceBound?_bound]
      dsimp only
      rw [htext]
      rfl
    · have hpart := Heap.contents?_text (Heap.text?_intern_self hwf part)
      rwa [String.toList_ofList, Slice.ofList_eq_between] at hpart
  · let part : Object := .array (Slice.ofArray (lower.map Binary64.toWord)
      (upper.map Binary64.toWord) items)
    refine ⟨.ref (m.heap.alloc part).1, (m.heap.alloc part).2, fun stack => ?_, ?_,
      fun v d hd => Heap.contents?_alloc hwf part hd⟩
    · unfold slice
      rw [get_bind, sliceBound?_bound, sliceBound?_bound]
      dsimp only
      rw [htext]
      dsimp only
      rw [hobject]
      rfl
    · have hpart := Heap.contents?_array (Heap.get?_alloc_self hwf part)
      rwa [Slice.toList_ofArray, Slice.ofList_eq_between] at hpart

/-- The read slice is pushed; the operands stay if an assignment follows. -/
theorem getSlice_of_slice {lower upper : Value} (willAssign : Bool)
    (hstack : m.stack = below ++ #[receiver, lower, upper])
    (hread : slice receiver lower upper m = .ok w q) (hq : q.stack = m.stack) :
    getSlice willAssign m =
      .ok () { q with stack := (if willAssign then m.stack else below).push w } := by
  have hupper : peek 0 m = .ok upper m := peek_append hstack (by simp)
  have hlower : peek 1 m = .ok lower m := peek_append hstack (by simp)
  have hreceiver : peek 2 m = .ok receiver m := peek_append hstack (by simp)
  have hdrop : drop 3 q = .ok () { q with stack := below } :=
    @drop_append q below #[receiver, lower, upper] (hq.trans hstack)
  unfold getSlice
  rw [bind_of_ok hupper, bind_of_ok hlower, bind_of_ok hreceiver, bind_of_ok hread]
  cases willAssign with
  | true =>
    rw [← hq]
    rfl
  | false => exact bind_of_ok hdrop fun _ => push w

theorem isSliceable_of_contents? (hc : m.heap.contents? receiver = some c) :
    m.isSliceable receiver = true := by
  unfold isSliceable
  obtain ⟨text, htext, -⟩ | ⟨items, -, hobject, -⟩ := Heap.contents?_cases hc
  · rcases receiver with _ | _ | _ | (i | i)
    case ref.text => rfl
    all_goals cases htext
  · rw [hobject, Bool.or_true]

/-- A range as an index stands for its bounds. -/
theorem elementOrSlice_range (hc : m.heap.contents? receiver = some c) {index : Value} {g : Range}
    (hindex : m.heap.object? index = some (.range g)) :
    elementOrSlice receiver index m =
      slice receiver (bound (some g.lower)) (bound (some g.upper)) m := by
  unfold elementOrSlice
  rw [get_bind, hindex]
  dsimp only
  rw [if_pos (isSliceable_of_contents? hc)]
  rfl

/-- A slice of an array or a text has what is between its cuts, and the receiver and all other
contents stay as they are. An index that is a range gives the same as its bounds do. No cut is out
of the contents, the last one is not before the first, and what is added for them is a word like the
length and the bound. The slices up to a number and from it on make up the whole. -/
theorem slices_exact (hwf : m.heap.WellFormed) (hc : m.heap.contents? receiver = some c)
    (lower upper : Option Float) (below : Array Value) (willAssign : Bool) :
    let low := lower.map Binary64.toWord
    let high := upper.map Binary64.toWord
    let slicing : Machine := { m with stack := below ++ #[receiver, bound lower, bound upper] }
    let indexing (index : Value) : Machine := { m with stack := below ++ #[receiver, index] }
    (∃ w heap,
      getSlice willAssign slicing =
        .ok () { m with heap, stack := (if willAssign then slicing.stack else below).push w } ∧
      heap.contents? w = some (c.between low high) ∧
      (∀ v d, m.heap.contents? v = some d → heap.contents? v = some d) ∧
      ∀ index g, m.heap.object? index = some (.range g) → lower = some g.lower →
        upper = some g.upper →
        getIndex willAssign (indexing index) = .ok () { m with
          heap, stack := (if willAssign then (indexing index).stack else below).push w }) ∧
    (c.between low high).length = Slice.last high c.length - Slice.first low c.length ∧
    (Slice.bounds low high c.length).1 ≤ (Slice.bounds low high c.length).2 ∧
    (Slice.bounds low high c.length).2 ≤ c.length ∧
    (∀ x, Binary64.IsWord c.length → Binary64.toWord x < 0 →
      Binary64.IsWord (c.length + Binary64.toWord x)) ∧
    ∀ x, Contents.Join (c.between none (some (Binary64.toWord x)))
      (c.between (some (Binary64.toWord x)) none) c := by
  intro low high slicing indexing
  refine ⟨?_, c.length_between low high, Slice.bounds_fst_le_snd low high c.length,
    Slice.bounds_snd_le low high c.length,
    fun x hlength => (Binary64.isWord_toWord x).add_length hlength,
    fun x => c.join_between (Binary64.toWord x)⟩
  obtain ⟨w, heap, hread, hcontents, hkept⟩ := slice_ok hwf hc lower upper
  refine ⟨w, heap, ?_, hcontents, hkept, ?_⟩
  · exact getSlice_of_slice (m := slicing) willAssign rfl (hread _) rfl
  · rintro index g hindex rfl rfl
    have hsame := elementOrSlice_range (m := indexing index) hc hindex
    exact getIndex_of_element willAssign rfl (hsame.trans (hread _)) rfl

/-- Slices of a text of two characters, in a new machine. -/
theorem slices_exact_text :
    let named := (Machine.new {}).heap.intern "añ"
    let m : Machine := { Machine.new {} with heap := named.2 }
    m.heap.WellFormed ∧ m.heap.contents? (.ref named.1) = some (.characters ['a', 'ñ']) ∧
      ∀ x : Float, ∃ w heap,
        getSlice false { m with stack := #[.ref named.1, .nil, .number x] } =
          .ok () { m with heap, stack := #[w] } ∧
        heap.contents? w =
          some (.characters (Slice.between none (some (Binary64.toWord x)) ['a', 'ñ'])) := by
  intro named m
  have hnew := (sound_new {}).heap
  have hwf : m.heap.WellFormed := hnew.intern "añ"
  have hc : m.heap.contents? (.ref named.1) = some (.characters ['a', 'ñ']) :=
    Heap.contents?_text (Heap.text?_intern_self hnew "añ")
  refine ⟨hwf, hc, fun x => ?_⟩
  obtain ⟨⟨w, heap, hslice, hcontents, -⟩, -⟩ := slices_exact hwf hc none (some x) #[] false
  exact ⟨w, heap, hslice, hcontents⟩

end Machine

end ScriptMachine
