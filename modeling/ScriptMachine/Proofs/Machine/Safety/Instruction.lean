import ScriptMachine.Proofs.Machine.Safety.Member

/-!
One instruction. Leaving regions and frames closes cells and searches the class of an exception, so
it is safe like everything else. What remains are the invocations of a superclass, which rely on the
height of the stack, and the instruction that lets a class inherit.
-/

namespace ScriptMachine.Machine

variable {α β : Type} {low : Prop} {I : Heap → Prop} {host : Host} {m : Machine} {f : Frame} {rest : List Frame}

/-! Leaving regions. -/

theorem guards_pushCompletion (completion : Completion) : Guards low I (pushCompletion completion) :=
  guards_modify fun _ hm => hm

theorem guards_accepts (region : Region) (e : Value) : Guards low I (accepts region e) := by
  unfold accepts
  split
  · exact guards_pure _
  · refine guards_get fun m hm => ?_
    exact (guardsAt_settle hm Heap.circular_of_isInstanceOf).bind fun _ => guards_pure _

theorem guards_popTry : Guards low I popTry := by
  refine guards_get fun m hm => ?_
  split
  · exact guards_breach _ m hm
  · refine GuardsAt.bind hm fun _ => ?_
    split
    · exact guards_pure _
    · exact guards_frame.bind fun f => (guards_pushCompletion _).bind fun _ => guards_jumpTo _

/-! Exceptions. -/

variable [hlasting : LastingOutsideDicts I]

theorem lasts_reset (hm : I m.heap) : I m.reset.heap := lasts_closeUpvalues hm 0

theorem lasts_popFrames (hm : I m.heap) (depth : Nat) : I (m.popFrames depth).heap := by
  have hclose (gone : List Frame) {m : Machine} (hm : I m.heap) :
      I (gone.foldl (fun m f => m.closeUpvalues f.base) m).heap := by
    induction gone generalizing m with
    | nil => exact hm
    | cons f gone ih => exact ih (lasts_closeUpvalues hm f.base)
  exact hclose _ hm

theorem lasts_unwindTo (hm : I m.heap) (region : Region) (left : Nat) :
    I (m.unwindTo region left).heap := by
  let completed : Machine :=
    { m with completions := m.completions.dropWhile fun p => decide (left < p.tryDepth) }
  have hpopped : I (completed.popFrames region.frameDepth).heap :=
    lasts_popFrames (m := completed) hm _
  exact lasts_closeUpvalues hpopped region.stackDepth

theorem guards_unhandled (e : Value) : Guards low I (unhandled e : Exec α) := by
  refine guards_get fun m hm => ?_
  have hwritten (text : String) : I (m.writeReport text).heap := hm
  exact GuardsAt.bind (I := I) (lasts_reset (hwritten _)) fun _ => guards_fault _

theorem guards_propagateThrough (e : Value) (regions : List Region) :
    Guards low I (propagateThrough e regions) := by
  induction regions with
  | nil => exact Guards.bind (guards_modify fun _ hm => hm) fun _ => guards_unhandled e
  | cons region rest ih =>
    have hunwind : Guards low I (modify fun m : Machine =>
        { m with regions := rest }.unwindTo region rest.length : Exec Unit) :=
      guards_modify fun m hm => lasts_unwindTo (m := { m with regions := rest }) hm region _
    refine hunwind.bind fun _ => (guards_accepts region e).bind fun accepted => ?_
    split
    · exact (guards_push e).bind fun _ => guards_jumpTo _
    · exact (guards_pushCompletion _).bind fun _ => guards_jumpTo _
    · exact (guards_pushCompletion _).bind fun _ => guards_jumpTo _
    · exact ih

theorem guards_propagate (e : Value) : Guards low I (propagate e) :=
  guards_read fun _ => guards_propagateThrough e _

theorem lasts_internAll (lines : List String) {m : Machine} (hm : I m.heap) :
    I (m.internAll lines).2.heap := by
  induction lines generalizing m with
  | nil => exact hm
  | cons line rest ih => exact ih (hlasting.intern line hm)

theorem lasts_attachTrace (hm : I m.heap) (e : Value) : I (m.attachTrace e).heap := by
  unfold attachTrace
  split
  · have hlines := lasts_internAll m.stackTrace hm
    have htrace : I ((m.internAll m.stackTrace).2.alloc
        (.array (m.internAll m.stackTrace).1.toArray)).2.heap := hlasting.alloc hlines ⟨nofun, rfl⟩ rfl
    exact lasts_setField htrace _ _ _
  · exact hm

theorem guards_throwValue (e : Value) : Guards low I (throwValue e) :=
  (guards_modify fun _ hm => lasts_attachTrace hm e).bind fun _ => guards_propagate e

/-- What an action raises is thrown. -/
theorem GuardsAt.throwing {action : Exec α} (haction : GuardsAt low I m action) (resume : α) :
    GuardsAt low I m (throwing resume action) := by
  unfold GuardsAt Machine.throwing at *
  cases hres : action m with
  | ok a m' =>
    rw [hres] at haction
    exact haction
  | error s m' =>
    rw [hres] at haction
    cases s with
    | raised e =>
      exact ((guards_throwValue e).bind fun _ => guards_pure resume) m' haction.1
    | _ => exact haction

/-! Entering regions, and returns. -/

theorem guards_enterTry : Guards low I enterTry := by
  refine guards_fetchConstant.bind fun type => guards_fetchShort.bind fun handler => ?_
  refine guards_fetchShort.bind fun block => guards_get fun m hm => ?_
  dsimp only
  split
  · exact guards_misuse _ m hm
  · exact hm

theorem guards_throwTop : Guards low I throwTop := by
  refine guards_pop.bind fun e => guards_get fun m hm => ?_
  refine (guardsAt_settle hm Heap.circular_of_isInstanceOf).bind fun found => ?_
  split
  · exact guards_raise e
  · exact guards_misuse _

theorem guards_leaveFrame (value : Value) : Guards low I (leaveFrame value) := by
  refine guards_get fun m hm => ?_
  split
  · exact guards_breach _ m hm
  · next f rest _ =>
    have hleft : I ({ m with frames := rest }.closeUpvalues f.base).heap :=
      lasts_closeUpvalues hm f.base
    refine GuardsAt.bind hleft fun _ => ?_
    split
    · exact guards_pure _
    · exact (guards_push _).bind fun _ => guards_pure _

theorem guards_returnThrough (value : Value) (depth : Nat) (regions : List Region) :
    Guards low I (returnThrough value depth regions) := by
  induction regions with
  | nil => exact guards_leaveFrame value
  | cons region rest ih =>
    unfold returnThrough
    split
    · refine Guards.bind (guards_modify fun _ hm => hm) fun _ => ?_
      split
      · refine Guards.bind (guards_modify fun m hm => lasts_closeUpvalues hm _) fun _ => ?_
        refine (guards_pushCompletion _).bind fun _ => (guards_jumpTo _).bind fun _ => ?_
        exact guards_pure _
      · exact ih
    · exact guards_leaveFrame value

theorem guards_finishReturn (value : Value) : Guards low I (finishReturn value) :=
  guards_read fun _ => guards_returnThrough value _ _

theorem guards_complete (completion : Completion) : Guards low I (complete completion) := by
  cases completion with
  | resume offset => exact (guards_jumpTo _).bind fun _ => guards_pure _
  | handle handler e =>
    exact (guards_push _).bind fun _ => (guards_jumpTo _).bind fun _ => guards_pure _
  | rethrow e => exact (guards_propagate _).bind fun _ => guards_pure _
  | giveBack value => exact guards_finishReturn _

theorem guards_endFinally : Guards low I endFinally := by
  refine guards_get fun m hm => ?_
  split
  · exact guards_breach _ m hm
  · refine GuardsAt.bind hm fun _ => ?_
    split
    · exact guards_breach _
    · exact guards_complete _

/-! Operations. -/

/-- How many arguments the next instruction passes to a member of a superclass. -/
def superCount? (m : Machine) : Option Nat :=
  m.frames.head?.bind fun f =>
    match m.opcode? with
    | some .invokeSuper => (f.proto.blob.byteAt? (f.ip + 3)).map UInt8.toNat
    | some .superConstructor => (f.proto.blob.byteAt? (f.ip + 1)).map UInt8.toNat
    | _ => none

omit hlasting in
theorem Guards.proceed {action : Exec Unit} (haction : Guards low I action) :
    Guards low I (proceed action) := haction.bind fun _ => guards_pure _

omit hlasting in
theorem Guards.maybeReturn {action : Exec (Option Value)} (haction : Guards low I action) :
    Guards low I (maybeReturn action) := haction.bind fun _ => guards_pure _

variable [hhost : host.Respects I]

/-- A member of a superclass is about to be invoked, and the stack is too low for the superclass, the
arguments and the receiver. -/
def Underfed (m : Machine) : Prop := ∃ count, m.superCount? = some count ∧ m.stack.size ≤ count + 1

/-- Operations that may make or change a dict. -/
def dictOps : List Opcode := [.makeDict, .indexSet, .propertySet]

/-- Every operation but the invocations of a superclass, the one that lets a class inherit, those
that bind methods, and those that may make or change a dict. -/
theorem guards_execute (start : Nat) {op : Opcode}
    (hplain : op ∉ [.invokeSuper, .superConstructor, .inherit, .getSuper, .propertyGet,
      .propertyGetSelf] ++ dictOps) : Guards low I (execute host start op) := by
  cases op with
  | pushConst => exact (guards_fetchConstant.bind fun v => guards_push v).proceed
  | pushNil | pushEmpty | pushTrue | pushFalse | pushOne => exact (guards_push _).proceed
  | pop => exact (guards_pop.bind fun _ => guards_pure ()).proceed
  | popN => exact (guards_fetchShort.bind fun _ => guards_drop _).proceed
  | dup => exact ((guards_peek 0).bind fun v => guards_push v).proceed
  | globalDefine => exact (guards_fetchConstant.bind fun v => guards_defineNamed v).proceed
  | globalGet => exact (guards_fetchConstant.bind fun v => guards_getNamed v).proceed
  | globalSet => exact (guards_fetchConstant.bind fun v => guards_setNamed v).proceed
  | localGet => exact (guards_fetchShort.bind fun _ => guards_getLocal _).proceed
  | localSet => exact (guards_fetchShort.bind fun _ => guards_setLocal _).proceed
  | argDefault => exact (guards_fetchShort.bind fun _ => guards_defaultLocal _).proceed
  | upvalueGet =>
    exact (guards_fetchShort.bind fun _ => (guards_readUpvalue _).bind fun v => guards_push v).proceed
  | upvalueSet =>
    exact (guards_fetchShort.bind fun _ =>
      (guards_peek 0).bind fun v => guards_writeUpvalue _ v).proceed
  | closeUpvalue => exact guards_closeTop.proceed
  | add => exact guards_add.proceed
  | mul => exact guards_multiply.proceed
  | sub | div | floorDiv | mod | pow | bitAnd | bitOr | bitXor | shiftLeft | shiftRight | greater
  | less => exact (guards_binaryNumber _ _).proceed
  | negate | bitNot => exact (guards_unaryNumber _ _).proceed
  | not => exact (guards_pop.bind fun _ => guards_read fun _ => guards_push _).proceed
  | equal => exact (guards_pop.bind fun _ => guards_pop.bind fun _ => guards_push _).proceed
  | jump => exact (guards_fetchShort.bind fun _ => guards_jumpBy _).proceed
  | jumpIfFalse => exact (guards_fetchShort.bind fun _ => guards_jumpIfFalse _).proceed
  | loop => exact (guards_fetchShort.bind fun _ => guards_jumpBack start _).proceed
  | call =>
    refine Guards.proceed (guards_fetchByte.bind fun count => ?_)
    exact guards_peek_bind fun v => guardsAbove_callValue v _
  | invoke =>
    exact (guards_fetchConstant.bind fun _ => guards_fetchByte.bind fun _ =>
      guards_invoke _ _ _).proceed
  | invokeSelf =>
    exact (guards_fetchConstant.bind fun _ => guards_fetchByte.bind fun _ =>
      guards_invoke _ _ _).proceed
  | invokeSuper | superConstructor | inherit | getSuper | propertyGet | propertyGetSelf | makeDict
  | indexSet | propertySet => simp [dictOps] at hplain
  | makeClosure => exact guards_makeClosure.proceed
  | ret => exact (guards_pop.bind fun v => guards_finishReturn v).maybeReturn
  | makeClass => exact (guards_fetchConstant.bind fun v => guards_makeClass v).proceed
  | makeMethod => exact (guards_fetchConstant.bind fun v => guards_makeMethod v).proceed
  | defineProperty =>
    exact (guards_fetchConstant.bind fun _ => guards_fetchByte.bind fun _ =>
      guards_defineProperty _ _).proceed
  | makeArray => exact (guards_fetchShort.bind fun _ => guards_makeArray _).proceed
  | makeRange => exact guards_makeRange.proceed
  | indexGet => exact (guards_fetchByte.bind fun _ => guards_getIndex _).proceed
  | sliceGet => exact (guards_fetchByte.bind fun _ => guards_getSlice _).proceed
  | enterTry => exact guards_enterTry.proceed
  | popTry => exact guards_popTry.proceed
  | endFinally => exact guards_endFinally.maybeReturn
  | throwTop => exact guards_throwTop.proceed
  | switch => exact (guards_fetchConstant.bind fun v => guards_switchOn v).proceed
  | typeOf => exact guards_typeOfTop.proceed
  | stringify => exact guards_stringify.proceed
  | instanceOf => exact guards_testInstance.proceed
  | echo => exact guards_echo.proceed
  | assert => exact guards_assertTop.proceed
  | halt =>
    refine guards_fetchByte.bind fun status => ?_
    exact (guards_modify fun _ hm => lasts_reset hm).bind fun _ => guards_pure _

omit hlasting hhost in
/-- What was read behind the byte of an operation, and the machine it goes on from. -/
theorem GuardsAt.reads {x : Exec α} {read : Blob → Nat → Option α} {width : Nat}
    (hx : Reads x read width) (hframes : m.frames = f :: rest) (hm : I m.heap) {g : α → Exec β}
    (hg : ∀ a, read f.proto.blob f.ip = some a → GuardsAt low I (m.atOffset (f.ip + width)) (g a)) :
    GuardsAt low I m (x >>= g) := by
  unfold GuardsAt
  rcases hx m f rest hframes with ⟨a, ha, hok⟩ | ⟨-, ip, offset, d, herror⟩
  · rw [bind_of_ok hok]
    exact hg a ha
  · rw [bind_of_error herror]
    exact ⟨hm, trivial⟩

omit hlasting hhost in
theorem guards_execute_dict [Lasting I] (start : Nat) {op : Opcode} (hop : op ∈ dictOps) :
    Guards low I (execute host start op) := by
  simp only [dictOps, List.mem_cons, List.not_mem_nil, or_false] at hop
  rcases hop with rfl | rfl | rfl
  · exact (guards_fetchShort.bind fun _ => guards_makeDict _).proceed
  · exact guards_setIndex.proceed
  · refine (guards_fetchConstant.bind fun name m hm => ?_).proceed
    exact guardsAt_setProperty hm fun r d value _ _ _ => guards_insertIntoDict r name value _ hm

/-- Operations that bind methods. -/
theorem guardsOn_execute {h : Heap} (hbinds : BindsSafely I h) (start : Nat) {op : Opcode}
    (hop : op ∈ [.getSuper, .propertyGet, .propertyGetSelf])
    (hframes : m.frames = f :: rest) (hheap : m.heap = h) (hm : I h) :
    GuardsAt low I m (execute host start op) := by
  have hread {x : Value → Exec Unit} (hx : ∀ v, GuardsOn low I h (x v)) :
      GuardsAt low I m (proceed (fetchConstant >>= x)) := by
    refine GuardsAt.bind ?_ fun _ => guards_pure _
    exact GuardsAt.reads reads_fetchConstant hframes (hheap ▸ hm) fun v _ => hx v _ hheap hm
  simp only [List.mem_cons, List.not_mem_nil, or_false] at hop
  rcases hop with rfl | rfl | rfl
  · exact hread fun v => guardsOn_getSuper hbinds v
  · exact hread fun v => guardsOn_getProperty hbinds v false
  · exact hread fun v => guardsOn_getProperty hbinds v true

/-- An instruction is safe if the property outlives a class that inherits, and a method that is bound.
It may depend on the dicts if the instruction makes and changes none. The stack is too low for it if
it is underfed. -/
theorem guardsAt_instruction (hm : I m.heap)
    (hinherit : m.opcode? = some .inherit → ∀ r s h, m.Inheriting r s h → I h)
    (hbinds : BindsSafely I m.heap)
    (hdicts : ∀ op ∈ dictOps, m.opcode? = some op → Lasting I) :
    GuardsAt m.Underfed I m (instruction host) := by
  unfold GuardsAt
  cases hframes : m.frames with
  | nil =>
    rw [instruction_of_nil host hframes]
    exact ⟨hm, trivial⟩
  | cons f rest =>
    have hfetched := fetched_instruction host hframes
    generalize instruction host m = result at hfetched
    cases hfetched with
    | atEnd => exact (guards_finishReturn .nil).maybeReturn m hm
    | unknown => exact ⟨hm, trivial⟩
    | @operation op hopcode =>
      refine GuardsAt.throwing ?_ none
      have hframes' := frames_atOffset hframes (f.ip + 1)
      have hheight {offset : Nat} (hsuper : m.superCount? =
          (f.proto.blob.byteAt? offset).map UInt8.toNat) (b : UInt8)
          (hb : f.proto.blob.byteAt? offset = some b) :
          m.Underfed ∨ b.toNat + 1 < m.stack.size := by
        refine (Nat.lt_or_ge (b.toNat + 1) m.stack.size).symm.imp_left fun hlow => ?_
        exact ⟨b.toNat, by rw [hsuper, hb, Option.map_some], hlow⟩
      by_cases hinvoke : op = .invokeSuper
      · subst hinvoke
        have hsuper : m.superCount? = (f.proto.blob.byteAt? (f.ip + 3)).map UInt8.toNat := by
          rw [superCount?, hframes, List.head?_cons, Option.bind_some, hopcode]
        refine GuardsAt.bind (x := fetchConstant >>= fun name => fetchByte >>= fun count =>
          invokeSuper host name count.toNat) ?_ fun _ => guards_pure _
        refine GuardsAt.reads reads_fetchConstant hframes' hm fun name _ => ?_
        refine GuardsAt.reads reads_fetchByte (frames_atOffset hframes' _) hm fun b hb => ?_
        exact guardsAbove_invokeSuper name b.toNat _ hm (hheight hsuper b hb)
      by_cases hconstruct : op = .superConstructor
      · subst hconstruct
        have hsuper : m.superCount? = (f.proto.blob.byteAt? (f.ip + 1)).map UInt8.toNat := by
          rw [superCount?, hframes, List.head?_cons, Option.bind_some, hopcode]
        refine GuardsAt.bind (x := fetchByte >>= fun count => superConstructor host count.toNat)
          ?_ fun _ => guards_pure _
        refine GuardsAt.reads reads_fetchByte hframes' hm fun b hb => ?_
        exact guardsAbove_superConstructor b.toNat _ hm (hheight hsuper b hb)
      by_cases hinherits : op = .inherit
      · subst hinherits
        refine GuardsAt.bind (guardsAt_inherit hm fun r s h hnext => ?_) fun _ => guards_pure _
        exact hinherit hopcode r s h ⟨hnext.high, hnext.subclass, hnext.superclass, hnext.heap⟩
      by_cases hbind : op ∈ [.getSuper, .propertyGet, .propertyGetSelf]
      · exact guardsOn_execute hbinds f.ip hbind hframes' rfl hm
      by_cases hdict : op ∈ dictOps
      · have hlasting := hdicts op hdict hopcode
        exact guards_execute_dict f.ip hdict _ hm
      refine guards_execute f.ip (fun hmem => ?_) _ hm
      simp only [List.cons_append, List.nil_append, List.mem_cons, List.not_mem_nil,
        or_false, not_or] at hbind hmem
      tauto

theorem lasts_collectIfDue (hm : I m.heap) : I m.collectIfDue.heap := by
  unfold collectIfDue
  split
  · exact hlasting.collect m.roots hm
  · exact hm

end ScriptMachine.Machine
