import ScriptMachine.Machine.Operator
import ScriptMachine.Proofs.Machine.Cover.State

/-!
Operators. They give numbers, truth values, new texts and new arrays of what their operands hold.
-/

namespace ScriptMachine.Machine.World

variable {α : Type} [Linked α] {w : World}

theorem grows_refuseOperands (symbol : String) (a b : Value) :
    w.Grows (refuseOperands symbol a b : Exec α) :=
  does_get fun _ _ => does_misuse _

theorem grows_binaryNumber (symbol : String) {op : Float → Float → Value}
    (hop : ∀ x y, w.Knows (op x y)) : w.Grows (binaryNumber symbol op) := by
  refine keeps_pop.then fun b _ => keeps_pop.then fun a _ => ?_
  split
  · exact (keeps_push (hop _ _)).lift
  · exact grows_refuseOperands _ _ _

theorem grows_arithmetic (symbol : String) (op : Float → Float → Float) :
    w.Grows (arithmetic symbol op) := grows_binaryNumber symbol fun _ _ => knows_number

theorem grows_comparison (symbol : String) (op : Float → Float → Bool) :
    w.Grows (comparison symbol op) := grows_binaryNumber symbol fun _ _ => knows_bool

theorem grows_bitwise (symbol : String) (op : Int64 → Int64 → Int64) :
    w.Grows (bitwise symbol op) := grows_binaryNumber symbol fun _ _ => knows_number

theorem grows_unaryNumber (symbol : String) {op : Float → Value} (hop : ∀ x, w.Knows (op x)) :
    w.Grows (unaryNumber symbol op) := by
  refine keeps_pop.then fun v _ => ?_
  split
  · exact (keeps_push (hop _)).lift
  · exact does_get fun _ _ => does_misuse _

theorem grows_add : w.Grows add := by
  refine keeps_pop.then fun b _ => keeps_pop.then fun a _ => ?_
  split
  · exact (keeps_push knows_number).lift
  · apply does_get
    intro m hm
    split
    · exact grows_pushNew fun m hm => hm.intern _
    · split
      · rename_i xs ys hxs hys
        have harray : w.Knows (Object.array (xs ++ ys)) := by
          rw [knows_items]
          intro v hv
          rcases Array.mem_append.1 hv with hleft | hright
          · exact knows_items.1 (hm.object hxs) v hleft
          · exact knows_items.1 (hm.object hys) v hright
        exact grows_pushNew fun m hm => hm.alloc harray nofun
      · exact grows_refuseOperands _ _ _

theorem grows_checkRepeat (unit count : Nat) (b : Value) : w.Grows (checkRepeat unit count b) := by
  unfold checkRepeat
  split
  · exact does_get fun _ _ => does_misuse _
  · exact does_pure (knows_plain rfl)

theorem mem_repeatArray {items : Array Value} {count : Nat} {v : Value}
    (hv : v ∈ repeatArray items count) : v ∈ items := by
  unfold repeatArray at hv
  split at hv
  · exact absurd hv (Array.not_mem_empty v)
  · induction count with
    | zero => exact absurd hv (Array.not_mem_empty v)
    | succ count ih =>
      rw [Nat.fold_succ] at hv
      rcases Array.mem_append.1 hv with hbefore | hlast
      · exact ih hbefore
      · exact hlast

theorem grows_repeatValue (a b : Value) (count : Nat) : w.Grows (repeatValue a b count) := by
  apply does_get
  intro m hm
  split
  · exact (grows_checkRepeat _ _ _).then fun u _ _ _ => grows_pushNew fun m hm => hm.intern _
  · rename_i items _ hitems
    have harray : w.Knows (Object.array (repeatArray items count)) :=
      knows_items.2 fun v hv => knows_items.1 (hm.object hitems) v (mem_repeatArray hv)
    refine (grows_checkRepeat _ _ _).then fun u _ hle _ => ?_
    exact grows_pushNew fun m hm => hm.alloc (harray.mono hle) nofun
  · exact grows_refuseOperands _ _ _

theorem grows_multiply : w.Grows multiply := by
  refine keeps_pop.then fun b _ => keeps_pop.then fun a _ => ?_
  split
  · exact (keeps_push knows_number).lift
  · split
    · exact grows_repeatValue _ _ _
    · exact grows_refuseOperands _ _ _
  · exact grows_refuseOperands _ _ _

end ScriptMachine.Machine.World
