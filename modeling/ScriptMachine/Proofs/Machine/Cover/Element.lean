import ScriptMachine.Machine.Element
import ScriptMachine.Proofs.Machine.Cover.Member

/-!
Containers. What a container gives was stored in it, and a slice or a new container holds nothing
but what was on the stack or in another container.
-/

namespace ScriptMachine.Machine.World

variable {α : Type} [Linked α] {w : World} {m : Machine}

/-! Making containers. -/

theorem grows_makeArray (count : Nat) : w.Grows (makeArray count) := by
  refine (keeps_takeTop count).then fun items hitems => ?_
  have harray : w.Knows (Object.array items) := hitems
  exact grows_pushNew fun m hm => hm.alloc harray nofun

theorem grows_insertPairs (r : Ref) {items : List Value} (hitems : ∀ v ∈ items, w.Knows v) :
    w.Grows (insertPairs r items) := by
  induction items using List.twoStepInduction generalizing w with
  | nil => exact does_pure (knows_plain rfl)
  | singleton key => exact does_pure (knows_plain rfl)
  | cons_cons key value rest ih _ =>
    have hkey := hitems key List.mem_cons_self
    have hvalue := hitems value (List.mem_cons_of_mem _ List.mem_cons_self)
    refine (grows_insertIntoDict r hkey hvalue).then fun u _ hle _ => ih fun v hv => ?_
    exact (hitems v (List.mem_cons_of_mem _ (List.mem_cons_of_mem _ hv))).mono hle

theorem grows_makeDict (count : Nat) : w.Grows (makeDict count) := by
  refine (keeps_takeTop _).then fun items hitems => ?_
  have hdict : w.Knows (Object.dict {}) := by simp
  have halloc : w.Grows (modifyGet fun m : Machine =>
      ((m.heap.alloc (.dict {})).1, { m with heap := (m.heap.alloc (.dict {})).2 }) : Exec Ref) := by
    apply grows_modifyGet
    intro m hm
    obtain ⟨u, hle, hheap, hr, -⟩ := hm.heap.alloc hdict nofun
    exact ⟨u, hle, ⟨hheap, (hm.state.mono hle).withHeap fun hk => Heap.Kempt.alloc hk nofun⟩, knows_reference.2 hr⟩
  refine halloc.then fun u r hwu hr => ?_
  have hpairs : u.Grows (insertPairs r items.toList) := by
    apply grows_insertPairs
    intro v hv
    exact (knows_array.1 hitems v (Array.mem_toList_iff.1 hv)).mono hwu
  refine hpairs.then fun v _ huv _ => (keeps_push ?_).lift
  exact knows_ref.2 ((knows_reference.1 hr).mono huv)

theorem grows_makeRange : w.Grows makeRange := by
  refine keeps_pop.then fun upper _ => keeps_pop.then fun lower _ => ?_
  split
  · exact grows_pushNew fun m hm => hm.alloc knows_range nofun
  · exact does_misuse _

/-! Reading. -/

theorem grows_slice (receiver lower upper : Value) : w.Grows (slice receiver lower upper) := by
  apply does_get
  intro m hm
  split
  · split
    · exact grows_modifyGet fun m hm => hm.intern _
    · split
      · rename_i items hitems
        have harray (low high : Option Int) : w.Knows (Object.array (Slice.ofArray low high items)) :=
          knows_items.2 fun v hv => knows_items.1 (hm.object hitems) v (ArraySlots.mem_of_mem_extract hv)
        exact grows_modifyGet fun m hm => hm.alloc (harray _ _) nofun
      · exact does_misuse _
  · exact does_misuse _

theorem grows_atPosition (sequence : Sequence) (index : Value) (length : Nat)
    {get? : Nat → Option α} (hget : ∀ i a, get? i = some a → w.Knows a) :
    w.Grows (atPosition sequence index length get?) := by
  unfold atPosition
  split
  · split
    · rename_i a ha
      obtain ⟨i, -, hi⟩ := Option.bind_eq_some_iff.1 ha
      exact does_pure (hget i a hi)
    · exact does_misuse _
  · exact does_misuse _

theorem grows_element (receiver index : Value) : w.Grows (element receiver index) := by
  apply does_get
  intro m hm
  split
  · dsimp only
    refine (grows_atPosition _ _ _ fun _ _ _ => knows_plain rfl).then fun u c _ _ => ?_
    exact grows_modifyGet fun m hm => hm.intern _
  · split
    · rename_i items hitems
      refine grows_atPosition _ _ _ fun i v hv => ?_
      exact knows_items.1 (hm.object hitems) v (Array.mem_of_getElem? hv)
    · refine (grows_atPosition _ _ _ fun _ _ _ => knows_plain rfl).then fun u x _ _ => ?_
      exact does_pure knows_number
    · rename_i d hd
      split
      · rename_i v hv
        exact does_pure ((knows_dict.1 (hm.object hd)).2.get? hv)
      · exact does_misuse _
    · exact does_misuse _

theorem grows_elementOrSlice (receiver index : Value) : w.Grows (elementOrSlice receiver index) := by
  apply does_get
  intro m hm
  split
  · split
    · exact grows_slice _ _ _
    · exact grows_element _ _
  · exact grows_element _ _

/-- A value takes the place of its operands, unless an assignment follows. -/
theorem keeps_answer {v : Value} (hv : w.Knows v) (willAssign : Bool) (count : Nat) :
    w.Keeps (do
      if !willAssign then drop count
      push v) := by
  dsimp only
  split
  · exact (keeps_drop count).then fun _ _ => keeps_push hv
  · exact keeps_push hv

theorem grows_getIndex (willAssign : Bool) : w.Grows (getIndex willAssign) := by
  refine (keeps_peek 0).then fun index _ => (keeps_peek 1).then fun receiver _ => ?_
  exact (grows_elementOrSlice _ _).then fun u v _ hv => (keeps_answer hv willAssign 2).lift

theorem grows_getSlice (willAssign : Bool) : w.Grows (getSlice willAssign) := by
  refine (keeps_peek 0).then fun upper _ => (keeps_peek 1).then fun lower _ => ?_
  refine (keeps_peek 2).then fun receiver _ => ?_
  exact (grows_slice _ _ _).then fun u v _ hv => (keeps_answer hv willAssign 3).lift

/-! Writing. -/

theorem mem_writeItem {items : Array Value} {index : Nat} {u v : Value}
    (hu : u ∈ writeItem items index v) : u ∈ items ∨ u = v := by
  unfold writeItem at hu
  split at hu
  · exact Array.mem_push.1 hu
  · exact Array.mem_or_eq_of_mem_setIfInBounds hu

theorem grows_setIndex : w.Grows setIndex := by
  refine (keeps_peek 0).then fun value hvalue => (keeps_peek 1).then fun index hindex => ?_
  refine (keeps_peek 2).then fun receiver _ => ?_
  have hdone {u : World} (hle : w ≤ u) : u.Grows (do drop 3; push value) :=
    (keeps_drop 3).then fun _ _ => (keeps_push (hvalue.mono hle)).lift
  have hrefused (what : Misuse) : w.Grows (do misuse what; drop 3; push value) :=
    Grows.then (does_misuse (α := Unit) what) fun u _ hle _ => hdone hle
  apply does_get
  intro m hm
  dsimp only
  split
  · rename_i i _
    split
    · split
      · split
        · rename_i slot _
          refine (keeps_set (hm.update ?_ ?_)).then fun _ _ => hdone (le_refl w)
          · intro o ho
            have hknows := hm.heap.objects _ o ho
            cases o with
            | array items =>
              rw [knows_items] at hknows ⊢
              intro v hv
              rcases mem_writeItem hv with hold | rfl
              · exact hknows v hold
              · exact hvalue
            | _ => exact hknows
          · intro o _
            cases o with
            | array items => exact Or.inr ⟨rfl, rfl, rfl, rfl⟩
            | _ => exact Or.inl rfl
        · exact hrefused _
      · exact hrefused _
    · exact (grows_insertIntoDict _ hindex hvalue).then fun u _ hle _ => hdone hle
    · exact hrefused _
  · exact hrefused _
  · exact hrefused _

/-! Switches. -/

theorem keeps_switchOn (table : Value) : w.Keeps (switchOn table) := by
  refine keeps_pop.then fun v _ => ?_
  apply does_get
  intro m hm
  split
  · exact keeps_jumpBy _
  · exact does_breach _

end ScriptMachine.Machine.World
