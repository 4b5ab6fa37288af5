import ScriptMachine.Machine.Unwinding
import ScriptMachine.Proofs.Machine.Renaming.Variable

/-!
Exceptions and returns in machines that are the same but for a renaming. The regions entered have
the same handlers, blocks and depths and ask for paired classes, so the same region takes the
exception; reports and traces are the same texts.
-/

namespace ScriptMachine

open Machine

namespace Renaming

variable {α β : Type} [Renamed α] {R : Renaming → Renaming → Prop} {ρ : Renaming} {m n : Machine}
  {v w e e' : Value} {g g' : Region}

/-! Reports. -/

/-- Lists that are alike come to the same under maps that agree on what is alike. -/
theorem map_eq_of_alike {γ : Type} {f f' : α → γ} (hff : ∀ a b, ρ.Alike a b → f a = f' b)
    {as bs : List α} (h : ρ.Alike as bs) : as.map f = bs.map f' := by
  induction h with
  | nil => rfl
  | cons hab _ ih => rw [List.map_cons, List.map_cons, hff _ _ hab, ih]

theorem Mirrors.stackTrace (hm : ρ.Mirrors m n) : m.stackTrace = n.stackTrace := by
  have hreversed : ρ.Alike m.frames.reverse n.frames.reverse := List.rel_reverse hm.state.frames
  refine map_eq_of_alike (fun f g hfg => ?_) hreversed
  obtain ⟨-, hproto, hip, -⟩ := hfg
  rw [Frame.currentLine, Frame.currentLine, hip]
  generalize f.proto = p at hproto
  generalize g.proto = q at hproto
  cases hproto
  rfl

theorem Mirrors.field? (hm : ρ.Mirrors m n) (he : ρ.Alike e e') (hvw : ρ.Alike v w) :
    ρ.Alike (m.field? e v) (n.field? e' w) := by
  have hobject := hm.heap.object? he
  unfold Machine.field?
  generalize m.heap.object? e = o? at hobject
  generalize n.heap.object? e' = o'? at hobject
  cases hobject with
  | none => exact .none
  | some ho =>
    cases ho with
    | inst _ hfields => exact hfields.get? hm.heap.leftPool hm.heap.rightPool hvw
    | _ => exact .none

theorem Mirrors.describeException (hm : ρ.Mirrors m n) (he : ρ.Alike e e') :
    m.describeException e = n.describeException e' := by
  have hcls := hm.heap.instanceClass? he
  have hmessage := hm.field? he (.ref hm.state.message)
  have htrace := alike_bind (hm.field? he (.ref hm.state.stacktrace)) fun v w => hm.heap.object?
  unfold Machine.describeException
  generalize m.heap.instanceClass? e = r? at hcls
  generalize n.heap.instanceClass? e' = s? at hcls
  cases hcls with
  | none => rw [hm.typeName he, hm.render he, hm.stackTrace]
  | some hrs =>
    refine Prod.ext (hm.heap.className hrs) (Prod.ext ?_ ?_)
    · dsimp only
      generalize m.field? e _ = v? at hmessage
      generalize n.field? e' _ = w? at hmessage
      cases hmessage with
      | none => rfl
      | some hvw => exact hm.render hvw
    · dsimp only
      generalize (m.field? e _).bind m.heap.object? = o? at htrace
      generalize (n.field? e' _).bind n.heap.object? = o'? at htrace
      cases htrace with
      | none => rfl
      | some ho =>
        cases ho with
        | array hlines => exact map_eq_of_alike (fun v w => hm.render) hlines
        | _ => rfl

theorem Mirrors.writeReport (hm : ρ.Mirrors m n) (text : String) :
    ρ.Mirrors (m.writeReport text) (n.writeReport text) := by
  unfold Machine.writeReport
  rw [hm.state.errors]
  exact ⟨hm.heap, { hm.state with errors := rfl }⟩

theorem Mirrors.reset (hm : ρ.Mirrors m n) : ρ.Mirrors m.reset n.reset := by
  have hclosed := hm.closeUpvalues 0
  exact ⟨hclosed.heap,
    { hclosed.state with
      stack := .nil, frames := .nil, regions := .nil, completions := .nil, raised := .none }⟩

theorem keeps_unhandled (he : ρ.Alike e e') :
    ρ.Keeps (unhandled e : Exec α) (unhandled e') := by
  refine does_get fun m n hm => ?_
  rw [hm.describeException he]
  exact (keeps_set (hm.writeReport _).reset).then fun _ _ _ => keeps_fault _

/-! Frames and completions. -/

theorem Mirrors.dropFrames (hm : ρ.Mirrors m n) {frames frames' : List Frame}
    (h : ρ.Alike frames frames') :
    ρ.Mirrors { m with frames } { n with frames := frames' } :=
  ⟨hm.heap, { hm.state with frames := h }⟩

theorem Mirrors.withRegions (hm : ρ.Mirrors m n) {regions regions' : List Region}
    (h : ρ.Alike regions regions') :
    ρ.Mirrors { m with regions } { n with regions := regions' } :=
  ⟨hm.heap, { hm.state with regions := h }⟩

theorem Mirrors.withCompletions (hm : ρ.Mirrors m n) {completions completions' : List Pending}
    (h : ρ.Alike completions completions') :
    ρ.Mirrors { m with completions } { n with completions := completions' } :=
  ⟨hm.heap, { hm.state with completions := h }⟩

theorem Mirrors.depths (hm : ρ.Mirrors m n) :
    m.frames.length = n.frames.length ∧ m.regions.length = n.regions.length :=
  ⟨List.Forall₂.length_eq hm.state.frames, List.Forall₂.length_eq hm.state.regions⟩

theorem keeps_pushCompletion {c c' : Completion} (h : c.Alike ρ c') :
    ρ.Keeps (pushCompletion c) (pushCompletion c') := by
  refine keeps_modify fun m n hm => hm.withCompletions (.cons ?_ hm.state.completions)
  exact ⟨hm.depths.2, hm.depths.1, h⟩

theorem Mirrors.popFrames (hm : ρ.Mirrors m n) (depth : Nat) :
    ρ.Mirrors (m.popFrames depth) (n.popFrames depth) := by
  have hclose {gone gone' : List Frame} (hgone : ρ.Alike gone gone') {m n : Machine}
      (hm : ρ.Mirrors m n) :
      ρ.Mirrors (gone.foldl (fun m f => m.closeUpvalues f.base) m)
        (gone'.foldl (fun m f => m.closeUpvalues f.base) n) := by
    induction hgone generalizing m n with
    | nil => exact hm
    | cons hfg _ ih =>
      have hclosed := hm.closeUpvalues
      rw [List.foldl_cons, List.foldl_cons, hfg.base]
      exact ih (hclosed _)
  have hgone : ρ.Alike (m.frames.take (m.frames.length - depth))
      (n.frames.take (n.frames.length - depth)) := by
    rw [hm.depths.1]
    exact List.forall₂_take _ hm.state.frames
  have hclosed := hclose hgone hm
  refine hclosed.dropFrames ?_
  rw [List.Forall₂.length_eq hclosed.state.frames]
  exact List.forall₂_drop _ hclosed.state.frames

theorem alike_dropWhile {as bs : List α} (h : ρ.Alike as bs) {p q : α → Bool}
    (hpq : ∀ a b, ρ.Alike a b → p a = q b) : ρ.Alike (as.dropWhile p) (bs.dropWhile q) :=
  forall₂_dropWhile h hpq

theorem Mirrors.unwindTo (hm : ρ.Mirrors m n) (hg : ρ.Alike g g') (left : Nat) :
    ρ.Mirrors (m.unwindTo g left) (n.unwindTo g' left) := by
  have hcompletions := hm.withCompletions (alike_dropWhile hm.state.completions
    (p := fun p => decide (left < p.tryDepth)) (q := fun p => decide (left < p.tryDepth))
    fun p q hpq => by rw [hpq.tryDepth])
  unfold Machine.unwindTo
  rw [hg.frameDepth, hg.stackDepth]
  exact ((hcompletions.popFrames _).closeUpvalues _).truncate _

/-! Exceptions. -/

theorem keeps_accepts (hg : ρ.Alike g g') (he : ρ.Alike e e') :
    ρ.Keeps (accepts g e) (accepts g' e') := by
  have hfilter := hg.filter
  unfold accepts
  generalize g.filter? = r? at hfilter
  generalize g'.filter? = s? at hfilter
  cases hfilter with
  | none => exact keeps_pure rfl
  | some hrs =>
    refine does_get fun m n hm => ?_
    refine (keeps_settle (hm.heap.isInstanceOf hrs he)).then fun a? b? hab => ?_
    cases hab <;> exact keeps_pure rfl

theorem keeps_propagateThrough (he : ρ.Alike e e') {regions regions' : List Region}
    (hregions : ρ.Alike regions regions') :
    ρ.Keeps (propagateThrough e regions) (propagateThrough e' regions') := by
  induction hregions with
  | nil =>
    refine (keeps_modify fun m n hm => hm.withRegions .nil).then fun _ _ _ => ?_
    exact keeps_unhandled he
  | @cons g g' rest rest' hg hrest ih =>
    unfold propagateThrough
    rw [List.Forall₂.length_eq hrest]
    refine (keeps_modify fun m n hm => (hm.withRegions hrest).unwindTo hg _).then fun _ _ _ => ?_
    refine (keeps_accepts hg he).then fun taken taken' htaken => ?_
    obtain rfl : taken = taken' := htaken
    rw [hg.handler, hg.block]
    cases g'.finally? with
    | none =>
      cases taken with
      | false => exact ih
      | true =>
        cases g'.handler? with
        | none => exact ih
        | some handler => exact (keeps_push he).then fun _ _ _ => keeps_jumpTo _
    | some block =>
      have hrethrown : ρ.Keeps (do pushCompletion (.rethrow e); jumpTo block)
          (do pushCompletion (.rethrow e'); jumpTo block) :=
        (keeps_pushCompletion (.rethrow he)).then fun _ _ _ => keeps_jumpTo _
      cases taken with
      | false => exact hrethrown
      | true =>
        cases g'.handler? with
        | none => exact hrethrown
        | some handler =>
          exact (keeps_pushCompletion (.handle handler he)).then fun _ _ _ => keeps_jumpTo _

theorem keeps_propagate (he : ρ.Alike e e') : ρ.Keeps (propagate e) (propagate e') :=
  does_get fun _ _ hm => keeps_propagateThrough he hm.state.regions

theorem Mirrors.internAll (hm : ρ.Mirrors m n) (lines : List String) :
    ρ.Makes (m.internAll lines) (n.internAll lines) := by
  induction lines generalizing ρ m n with
  | nil => exact ⟨ρ, le_refl ρ, hm, .nil⟩
  | cons line rest ih =>
    obtain ⟨σ, hρσ, hσ, hline⟩ := hm.intern line
    obtain ⟨τ, hστ, hτ, hrest⟩ := ih hσ
    exact ⟨τ, hρσ.trans hστ, hτ, .cons (hline.mono hστ) hrest⟩

theorem Mirrors.attachTrace (hm : ρ.Mirrors m n) (he : ρ.Alike e e') :
    ∃ σ, ρ ≤ σ ∧ σ.Mirrors (m.attachTrace e) (n.attachTrace e') := by
  have hsome : (m.heap.instanceClass? e).isSome = (n.heap.instanceClass? e').isSome := by
    have hcls := hm.heap.instanceClass? he
    generalize m.heap.instanceClass? e = r? at hcls
    generalize n.heap.instanceClass? e' = s? at hcls
    cases hcls <;> rfl
  unfold Machine.attachTrace
  rw [hsome, hm.stackTrace]
  split
  · obtain ⟨σ, hρσ, hσ, hlines⟩ := hm.internAll n.stackTrace
    have hitems : σ.Alike (m.internAll n.stackTrace).1.toArray
        (n.internAll n.stackTrace).1.toArray := hlines
    obtain ⟨τ, hστ, hτ, htrace⟩ := hσ.alloc (.array hitems) nofun nofun
    refine ⟨τ, hρσ.trans hστ, hτ.setField ((he.mono hρσ).mono hστ) ?_ htrace⟩
    exact .ref hτ.state.stacktrace
  · exact ⟨ρ, le_refl ρ, hm⟩

theorem grows_throwValue (he : ρ.Alike e e') : ρ.Grows (throwValue e) (throwValue e') := by
  have hattach : ρ.Grows (modify fun m : Machine => m.attachTrace e : Exec Unit)
      (modify fun m => m.attachTrace e') := by
    intro m n hm
    obtain ⟨σ, hle, hσ⟩ := hm.attachTrace he
    exact .ok hle hσ rfl
  exact hattach.then fun _ _ _ hle _ => (keeps_propagate (he.mono hle)).lift

/-- Exceptions that two actions raise are thrown alike. -/
theorem Does.throwing [Course R] {a b : α} {x y : Exec α} (hab : ∀ {σ : Renaming}, σ.Alike a b)
    (h : ρ.Does R x y) : ρ.Does R (throwing a x) (throwing b y) := by
  intro m n hm
  have hends := h m n hm
  unfold Machine.throwing
  generalize x m = res at hends
  generalize y n = res' at hends
  cases hends with
  | ok hR hσ hcd => exact .ok hR hσ hcd
  | endless => exact .endless
  | @error σ s t m' n' hR hσ hst =>
    cases hst with
    | raised he =>
      have hthrown : σ.Grows (do throwValue _; return a : Exec α) (do throwValue _; return b) :=
        (grows_throwValue he).then fun _ _ _ _ _ => (keeps_pure hab).lift
      exact Ends.after hR (hthrown.lift m' n' hσ)
    | fault f => exact .error hR hσ (.fault f)
    | endless => exact .endless
    | crash => exact .error hR hσ .crash

/-! Regions. -/

theorem Mirrors.filterClass (hm : ρ.Mirrors m n) (hvw : ρ.Alike v w) :
    ρ.pairs (m.filterClass v) (n.filterClass w) := by
  have hglobal := hm.state.globals.get? hm.heap.leftPool hm.heap.rightPool hvw
  unfold Machine.filterClass
  generalize m.globals.get? m.heap.pool v = v? at hglobal
  generalize n.globals.get? n.heap.pool w = w? at hglobal
  cases hglobal with
  | none => exact hm.state.exceptions _
  | some hvw' =>
    cases hvw' with
    | ref hrs =>
      dsimp only
      rw [hm.heap.isClass hrs]
      split
      · exact hrs
      · exact hm.state.exceptions _
    | _ => exact hm.state.exceptions _

theorem grows_enterTry : ρ.Grows enterTry enterTry := by
  refine keeps_fetchConstant.then fun type type' htype => ?_
  refine keeps_fetchShort.then fun handler handler' hhandler => ?_
  refine keeps_fetchShort.then fun block block' hblock => ?_
  obtain rfl : handler = handler' := hhandler
  obtain rfl : block = block' := hblock
  refine does_get fun m n hm => ?_
  have hnested : (m.regions.takeWhile fun r => r.frameDepth == m.frames.length).length =
      (n.regions.takeWhile fun r => r.frameDepth == n.frames.length).length := by
    refine List.Forall₂.length_eq (forall₂_takeWhile hm.state.regions fun g g' hg => ?_)
    rw [hg.frameDepth, hm.depths.1]
  dsimp only
  rw [hnested, hm.limits.2.1, hm.size, hm.depths.1, Value.Alike.isNil htype]
  split
  · exact grows_misuse _
  · apply Keeps.lift
    refine keeps_set (hm.withRegions (.cons ⟨rfl, rfl, ?_, rfl, rfl⟩ hm.state.regions))
    dsimp only
    split
    · exact .none
    · exact .some (hm.filterClass htype)

theorem keeps_popTry : ρ.Keeps popTry popTry := by
  refine does_get fun m n hm => ?_
  have hregions := hm.state.regions
  generalize m.regions = gs at hregions
  generalize n.regions = gs' at hregions
  cases hregions with
  | nil => exact keeps_breach _
  | @cons g g' _ _ hg hrest =>
    refine (keeps_set (hm.withRegions hrest)).then fun _ _ _ => ?_
    rw [hg.block]
    cases g'.finally? with
    | none => exact keeps_pure rfl
    | some block =>
      refine keeps_frame.then fun f f' hf => ?_
      rw [hf.ip]
      exact (keeps_pushCompletion (.resume _)).then fun _ _ _ => keeps_jumpTo _

theorem grows_throwTop : ρ.Grows throwTop throwTop := by
  refine keeps_pop.then fun e e' he => does_get fun m n hm => ?_
  refine (keeps_settle (hm.heap.isInstanceOf (hm.state.exceptions _) he)).then fun a? b? hab => ?_
  cases hab with
  | none => exact grows_misuse _
  | some _ => exact (keeps_raised he).lift

/-! Returns. -/

theorem keeps_leaveFrame (hvw : ρ.Alike v w) : ρ.Keeps (leaveFrame v) (leaveFrame w) := by
  refine does_get fun m n hm => ?_
  have hframes := hm.state.frames
  generalize m.frames = fs at hframes
  generalize n.frames = gs at hframes
  cases hframes with
  | nil => exact keeps_breach _
  | @cons f g rest rest' hfg hrest =>
    have hleft := (hm.dropFrames hrest).closeUpvalues g.base
    have hkind : f.proto.kind = g.proto.kind := by
      obtain ⟨-, hproto, -⟩ := hfg
      generalize f.proto = p at hproto
      generalize g.proto = q at hproto
      cases hproto
      rfl
    dsimp only
    rw [hkind, hfg.base, List.Forall₂.length_eq hrest]
    have hgiven : ρ.Alike
        (if g.proto.kind = .initializer then
          (({ m with frames := rest } : Machine).closeUpvalues g.base).stack.getD g.base .nil
          else v)
        (if g.proto.kind = .initializer then
          (({ n with frames := rest' } : Machine).closeUpvalues g.base).stack.getD g.base .nil
          else w) := by
      split
      · exact alike_getD hleft.state.stack _ .nil
      · exact hvw
    have hdropped := (hleft.truncate g.base).withCompletions
      (alike_dropWhile (hleft.truncate g.base).state.completions
        (p := fun p => decide (rest'.length < p.frameDepth))
        (q := fun p => decide (rest'.length < p.frameDepth)) fun p q hpq => by rw [hpq.frameDepth])
    refine (keeps_set hdropped).then fun _ _ _ => ?_
    cases hrest with
    | nil => exact keeps_pure (.some hgiven)
    | cons _ _ => exact (keeps_push hgiven).then fun _ _ _ => keeps_pure .none

theorem keeps_returnThrough (hvw : ρ.Alike v w) (depth : Nat) {regions regions' : List Region}
    (hregions : ρ.Alike regions regions') :
    ρ.Keeps (returnThrough v depth regions) (returnThrough w depth regions') := by
  induction hregions with
  | nil => exact keeps_leaveFrame hvw
  | @cons g g' rest rest' hg hrest ih =>
    unfold returnThrough
    rw [hg.frameDepth, hg.block, hg.stackDepth]
    split
    · refine (keeps_modify fun m n hm => hm.withRegions hrest).then fun _ _ _ => ?_
      cases g'.finally? with
      | none => exact ih
      | some block =>
        refine (keeps_modify fun m n hm => (hm.closeUpvalues _).truncate _).then fun _ _ _ => ?_
        refine (keeps_pushCompletion (.giveBack hvw)).then fun _ _ _ => ?_
        exact (keeps_jumpTo _).then fun _ _ _ => keeps_pure .none
    · exact keeps_leaveFrame hvw

theorem keeps_finishReturn (hvw : ρ.Alike v w) :
    ρ.Keeps (finishReturn v) (finishReturn w) := by
  refine does_get fun m n hm => ?_
  rw [hm.depths.1]
  exact keeps_returnThrough hvw _ hm.state.regions

theorem keeps_complete {c c' : Completion} (h : c.Alike ρ c') :
    ρ.Keeps (complete c) (complete c') := by
  cases h with
  | resume offset => exact (keeps_jumpTo _).then fun _ _ _ => keeps_pure .none
  | handle handler he =>
    refine (keeps_push he).then fun _ _ _ => (keeps_jumpTo _).then fun _ _ _ => ?_
    exact keeps_pure .none
  | rethrow he => exact (keeps_propagate he).then fun _ _ _ => keeps_pure .none
  | giveBack hvw => exact keeps_finishReturn hvw

theorem keeps_endFinally : ρ.Keeps endFinally endFinally := by
  refine does_get fun m n hm => ?_
  have hcompletions := hm.state.completions
  generalize m.completions = ps at hcompletions
  generalize n.completions = qs at hcompletions
  cases hcompletions with
  | nil => exact keeps_breach _
  | cons hpq hrest =>
    refine (keeps_set (hm.withCompletions hrest)).then fun _ _ _ => ?_
    rw [hpq.frameDepth, hm.depths.1]
    split
    · exact keeps_breach _
    · exact keeps_complete hpq.completion

end Renaming

end ScriptMachine
