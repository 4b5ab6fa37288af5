import ScriptMachine.Machine.Operator
import ScriptMachine.Proofs.Machine.Renaming.State

/-!
Operators on operands that are alike. Numbers and truth values come out the same; texts and arrays
are made of the same characters and of elements that are alike.
-/

namespace ScriptMachine

open Machine

namespace Renaming

variable {α : Type} [Renamed α] {ρ : Renaming} {a a' b b' : Value}

theorem grows_refuseOperands (symbol : String) (ha : ρ.Alike a a') (hb : ρ.Alike b b') :
    ρ.Grows (refuseOperands symbol a b : Exec α) (refuseOperands symbol a' b') := by
  refine does_get fun m n hm => ?_
  rw [hm.typeName ha, hm.typeName hb]
  exact grows_misuse _

theorem grows_binaryNumber (symbol : String) {op : Float → Float → Value}
    (hop : ∀ x y, ρ.Alike (op x y) (op x y)) :
    ρ.Grows (binaryNumber symbol op) (binaryNumber symbol op) := by
  refine keeps_pop.then fun b b' hb => keeps_pop.then fun a a' ha => ?_
  have hrefused := grows_refuseOperands (α := Unit) symbol ha hb
  cases ha with
  | number x =>
    cases hb with
    | number y => exact (keeps_push (hop x y)).lift
    | _ => exact hrefused
  | _ => exact hrefused

theorem grows_arithmetic (symbol : String) (op : Float → Float → Float) :
    ρ.Grows (arithmetic symbol op) (arithmetic symbol op) :=
  grows_binaryNumber symbol fun _ _ => .number _

theorem grows_comparison (symbol : String) (op : Float → Float → Bool) :
    ρ.Grows (comparison symbol op) (comparison symbol op) :=
  grows_binaryNumber symbol fun _ _ => .bool _

theorem grows_bitwise (symbol : String) (op : Int64 → Int64 → Int64) :
    ρ.Grows (bitwise symbol op) (bitwise symbol op) :=
  grows_binaryNumber symbol fun _ _ => .number _

theorem grows_unaryNumber (symbol : String) {op : Float → Value}
    (hop : ∀ x, ρ.Alike (op x) (op x)) :
    ρ.Grows (unaryNumber symbol op) (unaryNumber symbol op) := by
  refine keeps_pop.then fun v w hvw => ?_
  have hrefused : ρ.Grows
      (do
        let m ← get
        misuse (.unaryOperand symbol (m.typeName v)) : Exec Unit)
      (do
        let m ← get
        misuse (.unaryOperand symbol (m.typeName w))) := by
    refine does_get fun m n hm => ?_
    rw [hm.typeName hvw]
    exact grows_misuse _
  cases hvw with
  | number x => exact (keeps_push (hop x)).lift
  | _ => exact hrefused

/-- What adding does with operands that are not two numbers. -/
def joinOperands (a b : Value) : Exec Unit := do
  let m ← get
  if a.isText || b.isText then push (← modifyGet fun m => m.intern (m.render a ++ m.render b))
  else
    match m.heap.object? a, m.heap.object? b with
    | some (.array xs), some (.array ys) =>
      push (← modifyGet fun m => m.alloc (.array (xs ++ ys)))
    | _, _ => refuseOperands "+" a b

theorem grows_joinOperands (ha : ρ.Alike a a') (hb : ρ.Alike b b') :
    ρ.Grows (joinOperands a b) (joinOperands a' b') := by
  refine does_get fun m n hm => ?_
  have hleft := hm.heap.object? ha
  have hright := hm.heap.object? hb
  have hrefused := grows_refuseOperands (α := Unit) "+" ha hb
  rw [Value.Alike.isText ha, Value.Alike.isText hb]
  split
  · refine grows_pushNew fun m n hm => ?_
    rw [hm.render ha, hm.render hb]
    exact hm.intern _
  · generalize m.heap.object? a = o? at hleft
    generalize n.heap.object? a' = o'? at hleft
    generalize m.heap.object? b = p? at hright
    generalize n.heap.object? b' = p'? at hright
    cases hleft with
    | none => exact hrefused
    | some ho =>
      cases hright with
      | none => cases ho <;> exact hrefused
      | some hp =>
        cases ho with
        | array hxs =>
          cases hp with
          | array hys =>
            exact grows_pushNew fun m n hm => hm.alloc (.array (alike_append hxs hys)) nofun nofun
          | _ => exact hrefused
        | _ => exact hrefused

theorem grows_add : ρ.Grows add add := by
  refine keeps_pop.then fun b b' hb => keeps_pop.then fun a a' ha => ?_
  have hjoined := grows_joinOperands ha hb
  cases ha with
  | number x =>
    cases hb with
    | number y => exact (keeps_push (.number _)).lift
    | _ => exact hjoined
  | _ => exact hjoined

theorem grows_checkRepeat (unit count : Nat) (hb : ρ.Alike b b') :
    ρ.Grows (checkRepeat unit count b) (checkRepeat unit count b') := by
  unfold checkRepeat
  split
  · refine does_get fun m n hm => ?_
    rw [hm.render hb]
    exact grows_misuse _
  · exact Keeps.lift (keeps_pure rfl)

theorem alike_repeatArray {xs ys : Array Value} (h : ρ.Alike xs ys) (count : Nat) :
    ρ.Alike (repeatArray xs count) (repeatArray ys count) := by
  unfold repeatArray
  rw [alike_isEmpty h]
  split
  · exact .nil
  · induction count with
    | zero => exact .nil
    | succ count ih =>
      rw [Nat.fold_succ, Nat.fold_succ]
      exact alike_append ih h

theorem grows_repeatValue (ha : ρ.Alike a a') (hb : ρ.Alike b b') (count : Nat) :
    ρ.Grows (repeatValue a b count) (repeatValue a' b' count) := by
  refine does_get fun m n hm => ?_
  have hobject := hm.heap.object? ha
  have hrefused := grows_refuseOperands (α := Unit) "*" ha hb
  rw [hm.heap.text? ha]
  cases n.heap.text? a' with
  | some text =>
    refine (grows_checkRepeat _ count hb).then fun σ _ _ _ _ => ?_
    exact grows_pushNew fun m n hm => hm.intern _
  | none =>
    generalize m.heap.object? a = o? at hobject
    generalize n.heap.object? a' = o'? at hobject
    cases hobject with
    | none => exact hrefused
    | some ho =>
      cases ho with
      | array hxs =>
        dsimp only
        rw [alike_size hxs]
        refine (grows_checkRepeat _ count hb).then fun σ _ _ hle _ => ?_
        exact grows_pushNew fun m n hm =>
          hm.alloc (.array ((alike_repeatArray hxs count).mono hle)) nofun nofun
      | _ => exact hrefused

theorem grows_multiply : ρ.Grows multiply multiply := by
  refine keeps_pop.then fun b b' hb => keeps_pop.then fun a a' ha => ?_
  have hrefused := grows_refuseOperands (α := Unit) "*" ha hb
  have hrepeated := grows_repeatValue ha hb
  cases hb with
  | number y =>
    cases ha with
    | number x => exact (keeps_push (.number _)).lift
    | ref _ =>
      dsimp only
      cases repeatCount? y with
      | some count => exact hrepeated count
      | none => exact hrefused
    | _ => exact hrefused
  | _ => cases ha <;> exact hrefused

end Renaming

end ScriptMachine
