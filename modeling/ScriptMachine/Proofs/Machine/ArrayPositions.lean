import ScriptMachine.Proofs.Positions
import ScriptMachine.Proofs.Machine.PrivateNames

/-!
Arrays by position. A write goes to a position of the array, or to the one after its end and makes
the array longer; every other position is refused and the array stays as it is. The same position
then reads what was written. A read is refused at and after the end.
-/

namespace ScriptMachine.Machine

variable {m q : Machine} {below args items : Array Value} {r : Ref} {x : Float} {v w : Value}
  {slot : Nat}

/-! Operands. -/

theorem peek_append (hstack : m.stack = below ++ args) {i : Nat} (hi : i < args.size) :
    peek i m = .ok (args.getD (args.size - (i + 1)) .nil) m := by
  have hsize : m.stack.size = below.size + args.size := by rw [hstack, Array.size_append]
  have hslot : m.stack.size - (i + 1) = below.size + (args.size - (i + 1)) := by omega
  rw [World.peek_of_lt (by omega), hslot, hstack, Array.getD_eq_getD_getElem?,
    Array.getD_eq_getD_getElem?, Array.getElem?_append_right (Nat.le_add_right _ _),
    Nat.add_sub_cancel_left]

theorem drop_append (hstack : m.stack = below ++ args) :
    drop args.size m = .ok () { m with stack := below } := by
  have hsize : m.stack.size = below.size + args.size := by rw [hstack, Array.size_append]
  have hdropped : m.stack.shrink (m.stack.size - args.size) = below := by
    rw [hsize, Nat.add_sub_cancel, hstack]
    simp
  unfold drop
  rw [get_bind, if_pos (by omega), hdropped]
  rfl

/-! Items. -/

theorem size_writeItem (items : Array Value) (slot : Nat) (v : Value) :
    (writeItem items slot v).size = if slot = items.size then items.size + 1 else items.size := by
  unfold writeItem
  split
  · exact Array.size_push v
  · exact Array.size_setIfInBounds

/-- A write changes one item. -/
theorem getElem?_writeItem (hslot : slot ≤ items.size) (v : Value) (i : Nat) :
    (writeItem items slot v)[i]? = if i = slot then some v else items[i]? := by
  unfold writeItem
  by_cases happend : slot = items.size
  · rw [if_pos happend, Array.getElem?_push, happend]
  · rw [if_neg happend, Array.getElem?_setIfInBounds]
    by_cases hi : i = slot
    · rw [if_pos hi.symm, if_pos hi, if_pos (by omega)]
    · rw [if_neg (Ne.symm hi), if_neg hi]

/-! Writes. -/

/-- The machine after a write to an array. -/
def withItem (m : Machine) (r : Ref) (items : Array Value) (slot : Nat) (v : Value) : Machine :=
  m.update r fun _ => .array (writeItem items slot v)

section Array

variable (hr : m.heap.get? r = some (.array items))

include hr

theorem get?_withItem (slot : Nat) (v : Value) (s : Ref) :
    (m.withItem r items slot v).heap.get? s =
      if s = r then some (.array (writeItem items slot v)) else m.heap.get? s := by
  have hget := Heap.get?_update (h := m.heap) r (fun _ => .array (writeItem items slot v)) s
  by_cases hs : s = r
  · subst hs
    rw [if_pos rfl, hr] at hget
    rw [if_pos rfl]
    exact hget
  · rw [if_neg (Ne.symm hs)] at hget
    rw [if_neg hs]
    exact hget

theorem setIndex_array (hstack : m.stack = below ++ #[.ref r, .number x, v]) :
    setIndex m =
      match Slice.writeIndex? x items.size with
      | some slot => .ok () { m.withItem r items slot v with stack := below.push v }
      | none => misuse (.position .array (Binary64.toWord x) items.size) m := by
  have hvalue : peek 0 m = .ok v m := peek_append hstack (by simp)
  have hindex : peek 1 m = .ok (.number x) m := peek_append hstack (by simp)
  have hreceiver : peek 2 m = .ok (.ref r) m := peek_append hstack (by simp)
  unfold setIndex
  rw [bind_of_ok hvalue, bind_of_ok hindex, bind_of_ok hreceiver, get_bind]
  cases r with
  | text i => cases hr
  | object i =>
    have hobject : m.heap.objects.get? i = some (.array items) := hr
    dsimp only
    rw [hobject]
    dsimp only
    cases Slice.writeIndex? x items.size with
    | none => rfl
    | some slot =>
      have hdrop (f : Object → Object) : drop 3 (m.update (.object i) f) =
          .ok () { m.update (.object i) f with stack := below } :=
        @drop_append (m.update (.object i) f) below #[.ref (.object i), .number x, v] hstack
      dsimp only
      rw [set_bind, bind_of_ok (hdrop _)]
      refine congrArg (fun heap => EStateM.Result.ok ()
        ({ m with heap, stack := below.push v } : Machine)) (Heap.update_congr hr ?_)
      rfl

/-- What a position reads. -/
theorem elementOrSlice_array (x : Float) :
    elementOrSlice (.ref r) (.number x) m =
      match (Slice.resolve? x items.size).bind (items[·]?) with
      | some w => .ok w m
      | none => misuse (.position .array (Binary64.toWord x) items.size) m := by
  have htext : m.heap.text? (.ref r) = none := by
    cases r with
    | text i => cases hr
    | object i => rfl
  have hobject : m.heap.object? (.ref r) = some (.array items) := hr
  have hindex : m.heap.object? (.number x) = none := rfl
  unfold elementOrSlice
  rw [get_bind, hindex]
  dsimp only
  unfold element atPosition
  rw [get_bind, htext]
  dsimp only
  rw [hobject]
  dsimp only
  cases (Slice.resolve? x items.size).bind (items[·]?) with
  | none => rfl
  | some w => rfl

end Array

/-- A read pushes what it finds; the operands stay if an assignment follows. -/
theorem getIndex_of_element {receiver index : Value} (willAssign : Bool)
    (hstack : m.stack = below ++ #[receiver, index])
    (hread : elementOrSlice receiver index m = .ok w q) (hq : q.stack = m.stack) :
    getIndex willAssign m =
      .ok () { q with stack := (if willAssign then m.stack else below).push w } := by
  have hindex : peek 0 m = .ok index m := peek_append hstack (by simp)
  have hreceiver : peek 1 m = .ok receiver m := peek_append hstack (by simp)
  have hdrop : drop 2 q = .ok () { q with stack := below } :=
    @drop_append q below #[receiver, index] (hq.trans hstack)
  unfold getIndex
  rw [bind_of_ok hindex, bind_of_ok hreceiver, bind_of_ok hread]
  cases willAssign with
  | true =>
    rw [← hq]
    rfl
  | false => exact bind_of_ok hdrop fun _ => push w

theorem getIndex_of_misuse {receiver index : Value} {what : Misuse} (willAssign : Bool)
    (hstack : m.stack = below ++ #[receiver, index])
    (hread : elementOrSlice receiver index m = misuse what m) :
    getIndex willAssign m = misuse what m := by
  have hindex : peek 0 m = .ok index m := peek_append hstack (by simp)
  have hreceiver : peek 1 m = .ok receiver m := peek_append hstack (by simp)
  unfold getIndex
  rw [bind_of_ok hindex, bind_of_ok hreceiver]
  exact bind_of_error hread _

/-! The main result. -/

theorem not_refuses_of_ok {kind : ExceptionKind} {action : Exec Unit}
    (h : action m = .ok () q) : ¬ m.Refuses kind action := by
  rintro ⟨e, q', herror, -⟩
  rw [h] at herror
  cases herror

/-- One item of an array was written, or one was added at its end, and nothing else was changed. -/
structure Wrote (m : Machine) (r : Ref) (items : Array Value) (word : Int) (v : Value)
    (q : Machine) : Prop where
  array : ∃ written : Array Value, q.heap.get? r = some (.array written) ∧
    (written.size = if word = items.size then items.size + 1 else items.size) ∧
    ∀ i : Nat, written[i]? = if (i : Int) = Slice.index word items.size then some v else items[i]?
  others : ∀ s, s ≠ r → q.heap.get? s = m.heap.get? s
  rest : q = { m with heap := q.heap }

theorem wrote_withItem (hr : m.heap.get? r = some (.array items))
    (hslot : Slice.writeIndex? x items.size = some slot) (v : Value) :
    m.Wrote r items (Binary64.toWord x) v (m.withItem r items slot v) := by
  obtain ⟨hindex, hle, happend⟩ := Slice.writeIndex?_eq_some hslot
  refine ⟨⟨writeItem items slot v, ?_, ?_, fun i => ?_⟩, fun s hs => ?_, rfl⟩
  · exact (get?_withItem hr slot v r).trans (if_pos rfl)
  · simp only [size_writeItem, happend]
  · simp only [getElem?_writeItem hle, ← hindex, Int.natCast_inj]
  · exact (get?_withItem hr slot v s).trans (if_neg hs)

theorem setIndex_refuses_iff (hwf : m.heap.WellFormed) (hr : m.heap.get? r = some (.array items))
    (hstack : m.stack = below ++ #[.ref r, .number x, v]) :
    m.Refuses .indexError setIndex ↔
      items.size < Binary64.toWord x ∨ Binary64.toWord x < -items.size := by
  have hset := setIndex_array hr hstack
  rw [← Slice.writeIndex?_eq_none_iff]
  cases hslot : Slice.writeIndex? x items.size with
  | none =>
    rw [hslot] at hset
    refine iff_of_true ?_ rfl
    unfold Refuses
    rw [hset]
    exact refuses_misuse hwf _
  | some slot =>
    rw [hslot] at hset
    exact iff_of_false (not_refuses_of_ok hset) (by simp)

theorem getIndex_refuses_iff (hwf : m.heap.WellFormed) (hr : m.heap.get? r = some (.array items))
    (willAssign : Bool) (hstack : m.stack = below ++ #[.ref r, .number x]) :
    m.Refuses .indexError (getIndex willAssign) ↔
      items.size ≤ Binary64.toWord x ∨ Binary64.toWord x < -items.size := by
  have hread := elementOrSlice_array hr x
  rw [← Slice.resolveWord?_eq_none_iff]
  show _ ↔ Slice.resolve? x items.size = none
  cases hindex : Slice.resolve? x items.size with
  | none =>
    rw [hindex] at hread
    refine iff_of_true ?_ rfl
    unfold Refuses
    rw [getIndex_of_misuse willAssign hstack hread]
    exact refuses_misuse hwf _
  | some i =>
    obtain ⟨-, hi⟩ := Slice.resolveWord?_eq_some hindex
    rw [hindex, Option.bind_some, Array.getElem?_eq_getElem hi] at hread
    exact iff_of_false (not_refuses_of_ok (getIndex_of_element willAssign hstack hread rfl)) (by simp)

/-- A position inside the array is read. -/
theorem getIndex_item (hr : m.heap.get? r = some (.array items)) {i : Nat}
    (hindex : Slice.resolve? x items.size = some i) (hw : items[i]? = some w) (willAssign : Bool)
    (hstack : m.stack = below ++ #[.ref r, .number x]) :
    getIndex willAssign m =
      .ok () { m with stack := (if willAssign then m.stack else below).push w } := by
  have hread := elementOrSlice_array hr x
  rw [hindex, Option.bind_some, hw] at hread
  exact getIndex_of_element willAssign hstack hread rfl

/-- A write is refused past the position after the end and before the start, and then the array
stays as it is. Any other write is read back at its position, leaves the other items, and makes the
array longer exactly at the position after its end. A read is refused from the end on and before the
start, and otherwise gives the item at the position, counted from the end if it is negative. What is
added for that is a word like the length and the position. -/
theorem array_positions (hwf : m.heap.WellFormed) (hr : m.heap.get? r = some (.array items))
    (x : Float) (v : Value) (below : Array Value) (willAssign : Bool) :
    let word := Binary64.toWord x
    let operands : Array Value := #[.ref r, .number x]
    let writing : Machine := { m with stack := below ++ #[.ref r, .number x, v] }
    let reading : Machine := { m with stack := below ++ operands }
    (writing.Refuses .indexError setIndex ↔ items.size < word ∨ word < -items.size) ∧
    (¬ (items.size < word ∨ word < -items.size) → ∃ q, m.Wrote r items word v q ∧
      setIndex writing = .ok () { q with stack := below.push v } ∧
      ∀ stack, getIndex false { q with stack := stack ++ operands } =
        .ok () { q with stack := stack.push v }) ∧
    (reading.Refuses .indexError (getIndex willAssign) ↔ items.size ≤ word ∨ word < -items.size) ∧
    (¬ (items.size ≤ word ∨ word < -items.size) → ∃ (i : Nat) (w : Value),
      (i : Int) = Slice.index word items.size ∧ items[i]? = some w ∧
      getIndex willAssign reading =
        .ok () { m with stack := (if willAssign then reading.stack else below).push w }) ∧
    (Binary64.IsWord items.size → word < 0 → Binary64.IsWord (items.size + word)) := by
  intro word operands writing reading
  refine ⟨setIndex_refuses_iff (m := writing) hwf hr rfl, fun hinside => ?_,
    getIndex_refuses_iff (m := reading) hwf hr willAssign rfl, fun hinside => ?_,
    fun hsize => (Binary64.isWord_toWord x).add_length hsize⟩
  · rw [← Slice.writeIndex?_eq_none_iff] at hinside
    obtain ⟨slot, hslot⟩ := Option.ne_none_iff_exists'.1 hinside
    have hset := setIndex_array (m := writing) hr rfl
    rw [hslot] at hset
    refine ⟨m.withItem r items slot v, wrote_withItem hr hslot v, hset, fun stack => ?_⟩
    have hwritten := (get?_withItem hr slot v r).trans (if_pos rfl)
    obtain ⟨-, hle, -⟩ := Slice.writeIndex?_eq_some hslot
    have hindex := Slice.resolve?_of_writeIndex? hslot
    rw [← size_writeItem items slot v] at hindex
    exact getIndex_item (m := { m.withItem r items slot v with stack := stack ++ operands })
      hwritten hindex ((getElem?_writeItem hle v slot).trans (if_pos rfl)) false rfl
  · rw [← Slice.resolveWord?_eq_none_iff] at hinside
    obtain ⟨i, hi⟩ := Option.ne_none_iff_exists'.1 hinside
    obtain ⟨hindex, hlt⟩ := Slice.resolveWord?_eq_some hi
    have hw : items[i]? = some items[i] := Array.getElem?_eq_getElem hlt
    exact ⟨i, items[i], hindex, hw, getIndex_item (m := reading) hr hi hw willAssign rfl⟩

/-- An array of one item, in a new machine. -/
theorem array_positions_singleton :
    let made := (Machine.new {}).heap.alloc (.array #[.bool true])
    let m : Machine := { Machine.new {} with heap := made.2 }
    m.heap.WellFormed ∧ m.heap.get? made.1 = some (.array #[.bool true]) ∧ ∀ x,
      let word := Binary64.toWord x
      let reading : Machine := { m with stack := #[.ref made.1, .number x] }
      (reading.Refuses .indexError (getIndex false) ↔ 1 ≤ word ∨ word < -1) ∧
      (¬ (1 < word ∨ word < -1) → ∃ q, m.Wrote made.1 #[.bool true] word .nil q ∧
        setIndex { m with stack := #[.ref made.1, .number x, .nil] } =
          .ok () { q with stack := #[.nil] }) := by
  intro made m
  have hnew := (sound_new {}).heap
  have hwf : m.heap.WellFormed := hnew.alloc _
  have hr : m.heap.get? made.1 = some (.array #[.bool true]) := Heap.get?_alloc_self hnew _
  refine ⟨hwf, hr, fun x => ?_⟩
  obtain ⟨-, hwrite, hread, -, -⟩ := array_positions hwf hr x .nil #[] false
  refine ⟨hread, fun hinside => ?_⟩
  obtain ⟨q, hq, hset, -⟩ := hwrite hinside
  exact ⟨q, hq, hset⟩

end ScriptMachine.Machine
