import ScriptMachine.Proofs.Machine.Cover.Variable

/-!
Leaving try regions and frames. A pending completion keeps its value known until the finally block
ends, and every way out of a region or a frame only drops what the machine holds.
-/

namespace ScriptMachine.Machine.World

variable {α : Type} [Linked α] {R : World → World → Prop} {w : World} {m : Machine}

theorem Covers.reset (hm : w.Covers m) : w.Covers m.reset := by
  have hclosed := hm.closeUpvalues 0
  have hstack : ∀ v ∈ (#[] : Array Value), w.Knows v := fun v hv => absurd hv (Array.not_mem_empty v)
  exact ⟨hclosed.heap,
    { hclosed.state with
      stack := hstack, frames := nofun, regions := nofun, completions := nofun,
      raised := knows_none,
      kempt := fun hstart =>
        (hm.state.kempt hstart).leave fun f _ => Or.inr (Nat.zero_le f.base) }⟩

theorem Covers.dropCompletions (hm : w.Covers m) {completions : List Pending}
    (hsub : ∀ p ∈ completions, p ∈ m.completions) : w.Covers { m with completions } :=
  ⟨hm.heap, { hm.state with completions := fun p hp => hm.state.completions p (hsub p hp) }⟩

theorem Covers.withRegions (hm : w.Covers m) {regions : List Region}
    (hregions : ∀ g ∈ regions, w.Knows g.filter?) : w.Covers { m with regions } :=
  ⟨hm.heap, { hm.state with regions := hregions }⟩

/-- Calls are dropped after their variables are closed. -/
theorem Covers.dropFrames (hm : w.Covers m) {frames : List Frame}
    (hsub : ∀ f ∈ frames, f ∈ m.frames)
    (hkempt : w.stretch.start.Kempt → Machine.Kempt { m with frames }) :
    w.Covers { m with frames } :=
  ⟨hm.heap,
    { hm.state with frames := fun f hf => hm.state.frames f (hsub f hf), kempt := hkempt }⟩

theorem keeps_pushCompletion {completion : Completion} (hvalue : w.Knows completion.value?) :
    w.Keeps (pushCompletion completion) := by
  apply keeps_modify
  intro m hm
  refine ⟨hm.heap, { hm.state with completions := ?_ }⟩
  intro p hp
  rcases List.mem_cons.1 hp with rfl | hold
  · exact hvalue
  · exact hm.state.completions p hold

/-! Exceptions. -/

theorem Covers.writeReport (hm : w.Covers m) (text : String) : w.Covers (m.writeReport text) :=
  ⟨hm.heap, { hm.state with }⟩

theorem does_unhandled [Std.Refl R] (e : Value) : w.Does R (unhandled e : Exec α) := by
  apply does_get
  intro m hm
  exact (keeps_set (hm.writeReport _).reset).then fun _ _ => does_fault _

theorem Covers.popFrames (hm : w.Covers m) (depth : Nat) : w.Covers (m.popFrames depth) := by
  have hclose (gone : List Frame) {m' : Machine} (hm' : w.Covers m') :
      w.Covers (gone.foldl (fun m f => m.closeUpvalues f.base) m') := by
    induction gone generalizing m' with
    | nil => exact hm'
    | cons f gone ih => exact ih (hm'.closeUpvalues f.base)
  refine (hclose _ hm).dropFrames ?_ fun hstart => (hm.state.kempt hstart).popFrames depth
  intro f hf
  exact List.mem_of_mem_drop hf

theorem Covers.unwindTo (hm : w.Covers m) (region : Region) (left : Nat) :
    w.Covers (m.unwindTo region left) := by
  let completions := m.completions.dropWhile fun p => decide (left < p.tryDepth)
  have hcompletions : w.Covers { m with completions } :=
    hm.dropCompletions fun p hp => (List.dropWhile_sublist _).subset hp
  exact ((hcompletions.popFrames _).closeUpvalues _).truncate _

theorem keeps_accepts (region : Region) (e : Value) : w.Keeps (accepts region e) := by
  unfold accepts
  split
  · exact does_pure (knows_plain rfl)
  · apply does_get
    intro m hm
    exact (keeps_settle fun _ _ => knows_plain rfl).then fun _ _ => does_pure (knows_plain rfl)

theorem keeps_propagateThrough {e : Value} (he : w.Knows e) {regions : List Region}
    (hregions : ∀ g ∈ regions, w.Knows g.filter?) : w.Keeps (propagateThrough e regions) := by
  induction regions with
  | nil =>
    have hclear : w.Keeps (modify fun m : Machine => { m with regions := [] } : Exec Unit) :=
      keeps_modify fun m hm => hm.withRegions nofun
    exact hclear.then fun _ _ => does_unhandled e
  | cons region rest ih =>
    have hrest : ∀ g ∈ rest, w.Knows g.filter? :=
      fun g hg => hregions g (List.mem_cons_of_mem region hg)
    refine (keeps_modify fun m hm => (hm.withRegions hrest).unwindTo region _).then fun _ _ => ?_
    refine (keeps_accepts region e).then fun taken _ => ?_
    split
    · exact (keeps_push he).then fun _ _ => keeps_jumpTo _
    · exact (keeps_pushCompletion he).then fun _ _ => keeps_jumpTo _
    · exact (keeps_pushCompletion he).then fun _ _ => keeps_jumpTo _
    · exact ih hrest

theorem keeps_propagate {e : Value} (he : w.Knows e) : w.Keeps (propagate e) :=
  does_get fun _ hm => keeps_propagateThrough he hm.state.regions

theorem Covers.internAll (hm : w.Covers m) (lines : List String) : w.Gives (m.internAll lines) := by
  induction lines generalizing w m with
  | nil => exact ⟨w, le_refl w, hm, knows_plain rfl⟩
  | cons line rest ih =>
    obtain ⟨u, hwu, hu, hline⟩ := hm.intern line
    obtain ⟨v, huv, hv, hrest⟩ := ih hu
    exact ⟨v, hwu.trans huv, hv, List.forall_mem_append.2 ⟨hline.mono huv, hrest⟩⟩

theorem Covers.attachTrace (hm : w.Covers m) (e : Value) :
    ∃ w', w ≤ w' ∧ w'.Covers (m.attachTrace e) := by
  unfold Machine.attachTrace
  split
  · obtain ⟨u, hwu, hu, hlines⟩ := hm.internAll m.stackTrace
    have harray : u.Knows (Object.array (m.internAll m.stackTrace).1.toArray) := hlines
    obtain ⟨v, huv, hv, htrace⟩ := hu.alloc harray nofun
    exact ⟨v, hwu.trans huv, hv.setField e (knows_ref.2 hv.state.stacktrace) htrace⟩
  · exact ⟨w, le_refl w, hm⟩

theorem grows_throwValue {e : Value} (he : w.Knows e) : w.Grows (throwValue e) := by
  have hattach : w.Grows (modify fun m : Machine => m.attachTrace e : Exec Unit) := by
    intro m hm
    obtain ⟨u, hle, hu⟩ := hm.attachTrace e
    exact ⟨u, hle, hu, knows_plain rfl⟩
  exact hattach.then fun u _ hle _ => (keeps_propagate (he.mono hle)).lift

/-- An exception that an action raises is known in the world where it was raised. -/
theorem Ends.throwing {resume : α} {action : Exec α} {m : Machine} (hresume : ∀ u, Knows u resume)
    (hR : ∀ {u v}, R w u → u ≤ v → R w v) (h : w.Ends R (action m)) :
    w.Ends R (throwing resume action m) := by
  unfold Machine.throwing
  split
  · rename_i e m' hraised
    rw [hraised] at h
    obtain ⟨u, hu, hcovers, he⟩ := h
    have hthrow : u.Grows (do throwValue e; return resume : Exec α) :=
      (grows_throwValue he).then fun v _ _ _ => does_pure (hresume v)
    have hend := hthrow m' hcovers
    revert hend
    cases (do throwValue e; return resume : Exec α) m' with
    | ok a m'' =>
      rintro ⟨v, huv, hv⟩
      exact ⟨v, hR hu huv, hv⟩
    | error s m'' =>
      rintro ⟨v, huv, hv⟩
      exact ⟨v, hR hu huv, hv⟩
  · exact h

/-! Regions. -/

theorem Covers.filterClass (hm : w.Covers m) (name : Value) : w.Has (m.filterClass name) := by
  unfold Machine.filterClass
  split
  · rename_i r hr
    split
    · exact knows_ref.1 (hm.state.globals.get? hr)
    · exact hm.state.exceptions _
  · exact hm.state.exceptions _

theorem grows_enterTry : w.Grows enterTry := by
  refine keeps_fetchConstant.then fun type _ => keeps_fetchShort.then fun handler _ => ?_
  refine keeps_fetchShort.then fun block _ => ?_
  apply does_get
  intro m hm
  dsimp only
  split
  · exact does_misuse _
  · refine (keeps_set (hm.withRegions ?_)).lift
    intro g hg
    rcases List.mem_cons.1 hg with rfl | hold
    · dsimp only
      split
      · exact knows_none
      · exact knows_reference.2 (hm.filterClass type)
    · exact hm.state.regions g hold

theorem keeps_popTry : w.Keeps popTry := by
  apply does_get
  intro m hm
  split
  · exact does_breach _
  · rename_i region rest hregions
    have hrest : ∀ g ∈ rest, w.Knows g.filter? :=
      fun g hg => hm.state.regions g (hregions ▸ List.mem_cons_of_mem region hg)
    refine (keeps_set (hm.withRegions hrest)).then fun _ _ => ?_
    split
    · exact does_pure (knows_plain rfl)
    · refine keeps_frame.then fun f _ => (keeps_pushCompletion knows_none).then fun _ _ => ?_
      exact keeps_jumpTo _

theorem grows_throwTop : w.Grows throwTop := by
  refine keeps_pop.then fun e he => ?_
  apply does_get
  intro m hm
  refine (keeps_settle fun _ _ => knows_plain rfl).then fun _ _ => ?_
  split
  · exact does_throw he
  · exact does_misuse _

/-! Returns. -/

theorem keeps_leaveFrame {value : Value} (hvalue : w.Knows value) : w.Keeps (leaveFrame value) := by
  apply does_get
  intro m hm
  split
  · exact does_breach _
  · rename_i f rest hframes
    have hleft : w.Covers (({ m with frames := rest } : Machine).closeUpvalues f.base) := by
      refine (hm.closeUpvalues f.base).dropFrames (fun f' hf' => ?_) fun hstart =>
        (hm.state.kempt hstart).leave fun f' hf' => ?_
      · exact hframes ▸ List.mem_cons_of_mem f hf'
      · rw [hframes, List.mem_cons] at hf'
        rcases hf' with rfl | hstays
        · exact Or.inr (Nat.le_refl _)
        · exact Or.inl hstays
    have hgiven : w.Knows (if f.proto.kind = .initializer then
        (({ m with frames := rest } : Machine).closeUpvalues f.base).stack.getD f.base .nil
        else value) := by
      split
      · exact knows_getD hleft.state.stack _
      · exact hvalue
    refine (keeps_set ((hleft.truncate f.base).dropCompletions fun p hp =>
      (List.dropWhile_sublist _).subset hp)).then fun _ _ => ?_
    split
    · exact does_pure hgiven
    · exact (keeps_push hgiven).then fun _ _ => does_pure knows_none

theorem keeps_returnThrough {value : Value} (hvalue : w.Knows value) (depth : Nat)
    {regions : List Region} (hregions : ∀ g ∈ regions, w.Knows g.filter?) :
    w.Keeps (returnThrough value depth regions) := by
  induction regions with
  | nil => exact keeps_leaveFrame hvalue
  | cons region rest ih =>
    have hrest : ∀ g ∈ rest, w.Knows g.filter? :=
      fun g hg => hregions g (List.mem_cons_of_mem region hg)
    unfold returnThrough
    split
    · refine (keeps_modify fun m hm => hm.withRegions hrest).then fun _ _ => ?_
      split
      · refine (keeps_modify fun m hm => (hm.closeUpvalues _).truncate _).then fun _ _ => ?_
        refine (keeps_pushCompletion hvalue).then fun _ _ => (keeps_jumpTo _).then fun _ _ => ?_
        exact does_pure knows_none
      · exact ih hrest
    · exact keeps_leaveFrame hvalue

theorem keeps_finishReturn {value : Value} (hvalue : w.Knows value) :
    w.Keeps (finishReturn value) :=
  does_get fun _ hm => keeps_returnThrough hvalue _ hm.state.regions

theorem keeps_complete {completion : Completion} (hvalue : w.Knows completion.value?) :
    w.Keeps (complete completion) := by
  cases completion with
  | resume offset => exact (keeps_jumpTo _).then fun _ _ => does_pure knows_none
  | handle handler e =>
    refine (keeps_push hvalue).then fun _ _ => (keeps_jumpTo _).then fun _ _ => ?_
    exact does_pure knows_none
  | rethrow e => exact (keeps_propagate hvalue).then fun _ _ => does_pure knows_none
  | giveBack value => exact keeps_finishReturn hvalue

theorem keeps_endFinally : w.Keeps endFinally := by
  apply does_get
  intro m hm
  split
  · exact does_breach _
  · rename_i pending rest hcompletions
    have hvalue : w.Knows pending.completion.value? :=
      hm.state.completions pending (hcompletions ▸ List.mem_cons_self)
    refine (keeps_set (hm.dropCompletions fun p hp =>
      hcompletions ▸ List.mem_cons_of_mem pending hp)).then fun _ _ => ?_
    split
    · exact does_breach _
    · exact keeps_complete hvalue

end ScriptMachine.Machine.World
