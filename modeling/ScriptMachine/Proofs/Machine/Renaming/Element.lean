import ScriptMachine.Machine.Element
import ScriptMachine.Proofs.Machine.Renaming.Member

/-!
Containers that are alike. They have the same size, the same bounds and keys that are alike, so a
position or a key leads to alike elements, and a write keeps the containers alike.
-/

namespace ScriptMachine

open Machine

namespace Renaming

variable {α : Type} [Renamed α] {ρ : Renaming} {m n : Machine} {r s : Ref}
  {v w receiver receiver' index index' lower lower' upper upper' : Value}

/-! Making containers. -/

theorem grows_makeArray (count : Nat) : ρ.Grows (makeArray count) (makeArray count) := by
  refine (keeps_takeTop count).then fun items items' hitems => ?_
  exact grows_pushNew fun m n hm => hm.alloc (.array hitems) nofun nofun

theorem grows_insertPairs (hrs : ρ.pairs r s) {items items' : List Value}
    (hitems : ρ.Alike items items') : ρ.Grows (insertPairs r items) (insertPairs s items') := by
  induction items using List.twoStepInduction generalizing ρ items' with
  | nil =>
    cases hitems
    exact Keeps.lift (keeps_pure rfl)
  | singleton key =>
    cases hitems with
    | cons _ hrest =>
      cases hrest
      exact Keeps.lift (keeps_pure rfl)
  | cons_cons key value rest ih _ =>
    cases hitems with
    | cons hkey hrest =>
      cases hrest with
      | cons hvalue hrest =>
        refine (grows_insertIntoDict hrs hkey hvalue).then fun σ _ _ hle _ => ?_
        have hrest' : ρ.Alike rest _ := hrest
        exact ih (hle.pairs hrs) (hrest'.mono hle)

theorem grows_makeDict (count : Nat) : ρ.Grows (makeDict count) (makeDict count) := by
  refine (keeps_takeTop _).then fun items items' hitems => ?_
  have halloc : ρ.Grows
      (modifyGet fun m : Machine =>
        ((m.heap.alloc (.dict {})).1, { m with heap := (m.heap.alloc (.dict {})).2 }) : Exec Ref)
      (modifyGet fun m =>
        ((m.heap.alloc (.dict {})).1, { m with heap := (m.heap.alloc (.dict {})).2 })) := by
    refine does_modifyGet fun m n hm => ?_
    have hempty : ρ.Alike (Object.dict {}) (.dict {}) := .dict .nil (Table.alike_empty ρ)
    obtain ⟨σ, hle, hheap, hrs⟩ := hm.heap.alloc hempty nofun nofun
    exact ⟨σ, hle, ⟨hheap, (hm.state.mono hle).withHeaps _ _⟩, hrs⟩
  refine halloc.then fun σ r s hρσ hrs => ?_
  have hlist : σ.Alike items.toList items'.toList := hitems.mono hρσ
  refine (grows_insertPairs hrs hlist).then fun τ _ _ hστ _ => ?_
  exact (keeps_push (.ref (hστ.pairs hrs))).lift

theorem grows_makeRange : ρ.Grows makeRange makeRange := by
  refine keeps_pop.then fun upper upper' hupper => keeps_pop.then fun lower lower' hlower => ?_
  cases hlower with
  | number x =>
    cases hupper with
    | number y => exact grows_pushNew fun m n hm => hm.alloc (.range _) nofun nofun
    | _ => exact grows_misuse _
  | _ => exact grows_misuse _

/-! Reading. -/

theorem sliceBound?_eq (hvw : ρ.Alike v w) : sliceBound? v = sliceBound? w := by
  cases hvw <;> rfl

theorem grows_slice (hreceiver : ρ.Alike receiver receiver') (hlower : ρ.Alike lower lower')
    (hupper : ρ.Alike upper upper') :
    ρ.Grows (slice receiver lower upper) (slice receiver' lower' upper') := by
  refine does_get fun m n hm => ?_
  have hobject := hm.heap.object? hreceiver
  rw [sliceBound?_eq hlower, sliceBound?_eq hupper, hm.heap.text? hreceiver,
    hm.typeName hreceiver, hm.typeName hlower, hm.typeName hupper]
  cases sliceBound? lower' with
  | none => exact grows_misuse _
  | some low =>
    cases sliceBound? upper' with
    | none => exact grows_misuse _
    | some high =>
      cases n.heap.text? receiver' with
      | some text => exact does_modifyGet fun m n hm => hm.intern _
      | none =>
        generalize m.heap.object? receiver = o? at hobject
        generalize n.heap.object? receiver' = o'? at hobject
        cases hobject with
        | none => exact grows_misuse _
        | some ho =>
          cases ho with
          | @array xs ys hxs =>
            have hslice : ρ.Alike (Slice.ofArray low high xs) (Slice.ofArray low high ys) := by
              unfold Slice.ofArray
              rw [alike_size hxs]
              exact alike_extract hxs _ _
            exact does_modifyGet fun m n hm => hm.alloc (.array hslice) nofun nofun
          | _ => exact grows_misuse _

theorem grows_atPosition (sequence : Sequence) (hindex : ρ.Alike index index') (length : Nat)
    {get? get?' : Nat → Option α} (hget : ∀ i, ρ.Alike (get? i) (get?' i)) :
    ρ.Grows (atPosition sequence index length get?) (atPosition sequence index' length get?') := by
  cases hindex with
  | number x =>
    have hread : ρ.Alike ((Slice.resolve? x length).bind get?)
        ((Slice.resolve? x length).bind get?') := by
      cases Slice.resolve? x length with
      | none => exact .none
      | some i => exact hget i
    unfold atPosition
    dsimp only
    generalize (Slice.resolve? x length).bind get? = a? at hread
    generalize (Slice.resolve? x length).bind get?' = b? at hread
    cases hread with
    | none => exact grows_misuse _
    | some hab => exact (keeps_pure hab).lift
  | _ => exact grows_misuse _

theorem grows_element (hreceiver : ρ.Alike receiver receiver') (hindex : ρ.Alike index index') :
    ρ.Grows (element receiver index) (element receiver' index') := by
  refine does_get fun m n hm => ?_
  have hobject := hm.heap.object? hreceiver
  have hquoted : m.heap.renderQuoted index = n.heap.renderQuoted index' :=
    hm.heap.renderAt _ true hindex
  rw [hm.heap.text? hreceiver, hm.typeName hreceiver, hquoted]
  cases n.heap.text? receiver' with
  | some text =>
    have hget (i : Nat) : ρ.Alike text.toList[i]? text.toList[i]? := by
      cases text.toList[i]? with
      | none => exact .none
      | some c => exact .some rfl
    refine (grows_atPosition .text hindex _ hget).then fun σ c c' _ hc => ?_
    obtain rfl : c = c' := hc
    exact does_modifyGet fun m n hm => hm.intern _
  | none =>
    generalize m.heap.object? receiver = o? at hobject
    generalize n.heap.object? receiver' = o'? at hobject
    cases hobject with
    | none => exact grows_misuse _
    | some ho =>
      cases ho with
      | array hxs =>
        dsimp only
        rw [alike_size hxs]
        exact grows_atPosition .array hindex _ (alike_getElem? hxs)
      | range range =>
        have hget (i : Nat) : ρ.Alike (range.get? i) (range.get? i) := by
          cases range.get? i with
          | none => exact .none
          | some x => exact .some rfl
        refine (grows_atPosition .range hindex _ hget).then fun σ x x' _ hx => ?_
        obtain rfl : x = x' := hx
        exact Keeps.lift (keeps_pure (.number x))
      | dict _ htable =>
        have hvalue := htable.get? hm.heap.leftPool hm.heap.rightPool hindex
        dsimp only
        generalize Table.get? _ m.heap.pool index = v? at hvalue
        generalize Table.get? _ n.heap.pool index' = w? at hvalue
        cases hvalue with
        | none => exact grows_misuse _
        | some hvw => exact (keeps_pure hvw).lift
      | _ => exact grows_misuse _

theorem Mirrors.isSliceable (hm : ρ.Mirrors m n) (hvw : ρ.Alike v w) :
    Machine.isSliceable m v = Machine.isSliceable n w := by
  have hobject := hm.heap.object? hvw
  unfold Machine.isSliceable
  rw [Value.Alike.isText hvw]
  congr 1
  generalize m.heap.object? v = o? at hobject
  generalize n.heap.object? w = o'? at hobject
  cases hobject with
  | none => rfl
  | some ho => cases ho <;> rfl

theorem grows_elementOrSlice (hreceiver : ρ.Alike receiver receiver')
    (hindex : ρ.Alike index index') :
    ρ.Grows (elementOrSlice receiver index) (elementOrSlice receiver' index') := by
  refine does_get fun m n hm => ?_
  have hobject := hm.heap.object? hindex
  have helement := grows_element hreceiver hindex
  rw [hm.isSliceable hreceiver]
  generalize m.heap.object? index = o? at hobject
  generalize n.heap.object? index' = o'? at hobject
  cases hobject with
  | none => exact helement
  | some ho =>
    cases ho with
    | range range =>
      dsimp only
      split
      · exact grows_slice hreceiver (.number _) (.number _)
      · exact helement
    | _ => exact helement

/-- Alike values take the place of their operands, unless an assignment follows. -/
theorem keeps_answer (hvw : ρ.Alike v w) (willAssign : Bool) (count : Nat) :
    ρ.Keeps
      (do
        if !willAssign then drop count
        push v)
      (do
        if !willAssign then drop count
        push w) := by
  dsimp only
  split
  · exact (keeps_drop count).then fun _ _ _ => keeps_push hvw
  · exact keeps_push hvw

theorem grows_getIndex (willAssign : Bool) : ρ.Grows (getIndex willAssign) (getIndex willAssign) := by
  refine (keeps_peek 0).then fun index index' hindex => ?_
  refine (keeps_peek 1).then fun receiver receiver' hreceiver => ?_
  refine (grows_elementOrSlice hreceiver hindex).then fun σ v w _ hvw => ?_
  exact (keeps_answer hvw willAssign 2).lift

theorem grows_getSlice (willAssign : Bool) : ρ.Grows (getSlice willAssign) (getSlice willAssign) := by
  refine (keeps_peek 0).then fun upper upper' hupper => ?_
  refine (keeps_peek 1).then fun lower lower' hlower => ?_
  refine (keeps_peek 2).then fun receiver receiver' hreceiver => ?_
  refine (grows_slice hreceiver hlower hupper).then fun σ v w _ hvw => ?_
  exact (keeps_answer hvw willAssign 3).lift

/-! Writing. -/

theorem alike_writeItem {xs ys : Array Value} (h : ρ.Alike xs ys) (slot : Nat)
    (hvw : ρ.Alike v w) : ρ.Alike (writeItem xs slot v) (writeItem ys slot w) := by
  unfold writeItem
  rw [alike_size h]
  split
  · exact alike_push h hvw
  · exact alike_setIfInBounds h slot hvw

theorem grows_setIndex : ρ.Grows setIndex setIndex := by
  refine (keeps_peek 0).then fun v w hvw => (keeps_peek 1).then fun index index' hindex => ?_
  refine (keeps_peek 2).then fun receiver receiver' hreceiver => ?_
  have hdone {σ : Renaming} (hle : ρ ≤ σ) : σ.Grows (do drop 3; push v) (do drop 3; push w) :=
    (keeps_drop 3).then fun _ _ _ => (keeps_push (hvw.mono hle)).lift
  have hrefused (what : Misuse) :
      ρ.Grows (do misuse what; drop 3; push v) (do misuse what; drop 3; push w) :=
    (grows_misuse (α := Unit) what).then fun σ _ _ hle _ => hdone hle
  refine does_get fun m n hm => ?_
  rw [hm.typeName hreceiver]
  cases hreceiver with
  | ref hrs =>
    rcases hm.heap.get?_cases hrs with ⟨i, j, rfl, rfl⟩ | ⟨i, j, o, o', rfl, rfl, ho, ho', hoo⟩
    · exact hrefused _
    · have hobject : m.heap.objects.get? i = some o := ho
      have hobject' : n.heap.objects.get? j = some o' := ho'
      dsimp only
      rw [hobject, hobject']
      cases hoo with
      | array hxs =>
        cases hindex with
        | number x =>
          dsimp only
          rw [alike_size hxs]
          cases Slice.writeIndex? x _ with
          | none => exact hrefused _
          | some slot =>
            refine (keeps_set (hm.update hrs ?_ ?_ ?_)).then fun _ _ _ => hdone (le_refl ρ)
            · intro u u' _ _ huu
              have hsame := huu
              cases huu with
              | array hys => exact .array (alike_writeItem hys slot hvw)
              | _ => exact hsame
            all_goals
              intro u _
              cases u with
              | array items => exact Or.inr ⟨rfl, rfl⟩
              | _ => exact Or.inl rfl
        | _ => exact hrefused _
      | dict _ _ =>
        exact (grows_insertIntoDict hrs hindex hvw).then fun σ _ _ hle _ => hdone hle
      | _ => exact hrefused _
  | _ => exact hrefused _

/-! Switches. -/

theorem Holds.distance {h k : Heap} (hh : ρ.Holds h k) {t u : SwitchTable}
    (hcases : ρ.Alike t.cases u.cases) (hdefault : t.default? = u.default?)
    (hexit : t.exit = u.exit) (hvw : ρ.Alike v w) : t.distance h.pool v = u.distance k.pool w := by
  have hcase := hcases.get? hh.leftPool hh.rightPool hvw
  unfold SwitchTable.distance
  rw [hdefault, hexit]
  generalize t.cases.get? h.pool v = v? at hcase
  generalize u.cases.get? k.pool w = w? at hcase
  cases hcase with
  | none => rfl
  | some hcase => cases hcase <;> rfl

theorem keeps_switchOn {table table' : Value} (htable : ρ.Alike table table') :
    ρ.Keeps (switchOn table) (switchOn table') := by
  refine keeps_pop.then fun v w hvw => does_get fun m n hm => ?_
  have hobject := hm.heap.object? htable
  generalize m.heap.object? table = o? at hobject
  generalize n.heap.object? table' = o'? at hobject
  cases hobject with
  | none => exact keeps_breach _
  | some ho =>
    cases ho with
    | switch hcases hdefault hexit =>
      dsimp only
      rw [hm.heap.distance hcases hdefault hexit hvw]
      exact keeps_jumpBy _
    | _ => exact keeps_breach _

end Renaming

end ScriptMachine
