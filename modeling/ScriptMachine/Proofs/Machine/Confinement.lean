import ScriptMachine.Machine.Step
import ScriptMachine.Proofs.Machine.Judgement

/-!
Confined actions. An action is confined to a relation of machines if it relates the machine the
action starts in to the one it ends in, however it ends. Two kinds of relations confine what the
machine does. One takes in the changes of the heap that instructions make, and whatever leaves the
heap and the globals alone; it confines every action that neither binds a global nor runs a native.
The other takes in the natives of a host as well.
-/

namespace ScriptMachine

/-- A relation that takes in changes of the heap, and everything beside the heap and the globals. -/
class Tolerant (R : Machine → Machine → Prop) : Prop where
  trans : ∀ {m m' m'' : Machine}, R m m' → R m' m'' → R m m''
  aside : ∀ {m m' : Machine}, m'.heap = m.heap → m'.globals = m.globals → R m m'
  alloc : ∀ (m : Machine) (o : Object), R m (m.alloc o).2
  intern : ∀ (m : Machine) (text : String), R m (m.intern text).2
  update : ∀ (m : Machine) (r : Ref) (f : Object → Object), R m (m.update r f)

/-- A relation that takes in what the natives of a host do. -/
class Host.Within (host : Host) (R : Machine → Machine → Prop) : Prop where
  native : ∀ name receiver args (m : Machine), R m (host name receiver args m).2

namespace Machine

variable {α β : Type} {R : Machine → Machine → Prop} {m m' : Machine}

/-- An action that is confined when it starts in this machine. -/
def ConfinedAt (R : Machine → Machine → Prop) (m : Machine) (x : Exec α) : Prop :=
  R m (final (x m))

def Confined (R : Machine → Machine → Prop) (x : Exec α) : Prop := ∀ m, ConfinedAt R m x

/-- The machine that was read is the one the action goes on from. -/
theorem confined_get {f : Machine → Exec α} (hf : ∀ m, ConfinedAt R m (f m)) :
    Confined R (get >>= f) := hf

theorem confined_read {f : Machine → Exec α} (hf : ∀ m, Confined R (f m)) :
    Confined R (get >>= f) := fun m => hf m m

theorem confinedAt_set (hm : R m m') : ConfinedAt R m (set m' : Exec Unit) := hm

theorem confined_modify {g : Machine → Machine} (hg : ∀ m, R m (g m)) :
    Confined R (modify g : Exec Unit) := hg

theorem confined_modifyGet {g : Machine → α × Machine} (hg : ∀ m, R m (g m).2) :
    Confined R (modifyGet g : Exec α) := hg

variable [htolerant : Tolerant R]

/-! Sequences. -/

theorem ConfinedAt.bind {x : Exec α} {f : α → Exec β} (hx : ConfinedAt R m x)
    (hf : ∀ a, Confined R (f a)) : ConfinedAt R m (x >>= f) := by
  unfold ConfinedAt at hx ⊢
  cases hres : x m with
  | ok a m' =>
    rw [hres] at hx
    rw [bind_of_ok hres]
    exact htolerant.trans hx (hf a m')
  | error s m' =>
    rw [hres] at hx
    rw [bind_of_error hres]
    exact hx

theorem Confined.bind {x : Exec α} {f : α → Exec β} (hx : Confined R x)
    (hf : ∀ a, Confined R (f a)) : Confined R (x >>= f) := fun m => (hx m).bind hf

/-! Single actions. -/

theorem confined_pure (a : α) : Confined R (pure a) := fun _ => htolerant.aside rfl rfl

theorem confined_throw (s : Signal) : Confined R (throw s : Exec α) :=
  fun _ => htolerant.aside rfl rfl

theorem confined_breach (b : Breach) : Confined R (breach b : Exec α) := confined_throw _

theorem confined_malformed (offset : Nat) (d : Defect) :
    Confined R (malformed offset d : Exec α) := confined_throw _

theorem confined_settle (s : Search α) : Confined R (settle s) := by
  cases s with
  | found a => exact confined_pure _
  | absent => exact confined_pure _
  | endless => exact confined_throw _

/-! Stack. -/

theorem confined_push (v : Value) : Confined R (push v) :=
  confined_modify fun _ => htolerant.aside rfl rfl

theorem confined_setSlot (slot : Nat) (v : Value) : Confined R (setSlot slot v) :=
  confined_modify fun _ => htolerant.aside rfl rfl

/-- What was just made is pushed. -/
theorem confined_pushNew {g : Machine → Value × Machine} (hg : ∀ m, R m (g m).2) :
    Confined R (do push (← modifyGet g)) := (confined_modifyGet hg).bind fun v => confined_push v

theorem confined_pushText {text : Machine → String} :
    Confined R (do push (← modifyGet fun m => m.intern (text m))) :=
  confined_pushNew fun m => htolerant.intern m _

theorem confined_pushObject (o : Object) :
    Confined R (do push (← modifyGet fun m => m.alloc o)) :=
  confined_pushNew fun m => htolerant.alloc m o

theorem confined_pop : Confined R pop := by
  refine confined_get fun m => ?_
  split
  · exact ConfinedAt.bind (htolerant.aside rfl rfl) fun _ => confined_pure _
  · exact confined_breach _ m

theorem confined_peek (distance : Nat) : Confined R (peek distance) := by
  refine confined_read fun m => ?_
  split
  · exact confined_pure _
  · exact confined_breach _

theorem confined_drop (count : Nat) : Confined R (drop count) := by
  refine confined_get fun m => ?_
  split
  · exact htolerant.aside rfl rfl
  · exact confined_breach _ m

theorem confined_setTop (v : Value) : Confined R (setTop v) := by
  refine confined_get fun m => ?_
  split
  · exact confined_breach _ m
  · exact htolerant.aside rfl rfl

theorem confined_takeTop (count : Nat) : Confined R (takeTop count) := by
  refine confined_get fun m => ?_
  split
  · exact ConfinedAt.bind (htolerant.aside rfl rfl) fun _ => confined_pure _
  · exact confined_breach _ m

theorem confined_calleeSlot (count : Nat) : Confined R (calleeSlot count) := by
  refine confined_read fun m => ?_
  split
  · exact confined_pure _
  · exact confined_breach _

/-! Frames and operands. -/

theorem confined_frame : Confined R frame := by
  refine confined_read fun m => ?_
  split
  · exact confined_pure _
  · exact confined_breach _

theorem confined_modifyFrame (g : Frame → Frame) : Confined R (modifyFrame g) := by
  refine confined_get fun m => ?_
  split
  · exact htolerant.aside rfl rfl
  · exact confined_breach _ m

theorem confined_jumpTo (offset : Nat) : Confined R (jumpTo offset) := confined_modifyFrame _

theorem confined_jumpBy (distance : Nat) : Confined R (jumpBy distance) := confined_modifyFrame _

theorem confined_localSlot (slot : Nat) : Confined R (localSlot slot) := by
  refine confined_frame.bind fun f => confined_read fun m => ?_
  split
  · exact confined_pure _
  · exact confined_breach _

theorem confined_fetchByte : Confined R fetchByte := by
  refine confined_frame.bind fun f => ?_
  split
  · exact (confined_jumpTo _).bind fun _ => confined_pure _
  · exact confined_malformed _ _

theorem confined_fetchShort : Confined R fetchShort :=
  confined_fetchByte.bind fun _ => confined_fetchByte.bind fun _ => confined_pure _

theorem confined_fetchConstant : Confined R fetchConstant := by
  refine confined_fetchShort.bind fun index => confined_frame.bind fun f => ?_
  split
  · exact confined_pure _
  · exact confined_malformed _ _

/-! Heap. -/

theorem tolerates_setField (m : Machine) (target key value : Value) :
    R m (m.setField target key value) := by
  unfold setField
  split
  · exact htolerant.update m _ _
  · exact htolerant.aside rfl rfl

theorem tolerates_makeException (m : Machine) (kind : ExceptionKind) (message : String) :
    R m (m.makeException kind message).2 := by
  let made := m.alloc (.inst { cls := m.builtins.exception kind })
  let named := made.2.intern message
  have hnamed : R m named.2 :=
    htolerant.trans (htolerant.alloc m _) (htolerant.intern made.2 message)
  exact htolerant.trans hnamed
    (tolerates_setField named.2 made.1 (.ref named.2.builtins.message) named.1)

theorem confined_misuse (what : Misuse) : Confined R (misuse what : Exec α) :=
  (confined_modifyGet fun m => tolerates_makeException m _ _).bind fun _ => confined_throw _

/-! Captured variables. -/

theorem tolerates_closeCells (stack : Array Value) (start : Nat) (cells : List Ref) (m : Machine) :
    R m { m with heap := (closeCells stack start cells m.heap).2 } := by
  induction cells generalizing m with
  | nil => exact htolerant.aside rfl rfl
  | cons r rest ih =>
    unfold closeCells
    split
    · split
      · exact htolerant.aside rfl rfl
      · exact htolerant.trans (htolerant.update m r _) (ih (m.update r _))
    · exact ih m

theorem tolerates_closeUpvalues (m : Machine) (start : Nat) : R m (m.closeUpvalues start) :=
  htolerant.trans (tolerates_closeCells m.stack start m.openUpvalues m) (htolerant.aside rfl rfl)

theorem tolerates_captureSlot (m : Machine) (slot : Nat) : R m (m.captureSlot slot).2 := by
  unfold captureSlot
  dsimp only
  split
  · exact htolerant.aside rfl rfl
  · exact htolerant.trans (htolerant.alloc m _) (htolerant.aside rfl rfl)

theorem confined_frameUpvalue (index : Nat) : Confined R (frameUpvalue index) := by
  refine confined_frame.bind fun f => confined_read fun m => ?_
  split
  · split
    · exact confined_pure _
    · exact confined_breach _
  · exact confined_breach _

theorem confined_readUpvalue (index : Nat) : Confined R (readUpvalue index) := by
  refine (confined_frameUpvalue index).bind fun r => confined_read fun m => ?_
  split
  · split
    · exact confined_pure _
    · exact confined_breach _
  · exact confined_pure _
  · exact confined_breach _

theorem confined_writeUpvalue (index : Nat) (v : Value) : Confined R (writeUpvalue index v) := by
  refine (confined_frameUpvalue index).bind fun r => confined_get fun m => ?_
  split
  · split
    · exact confined_setSlot _ v m
    · exact confined_breach _ m
  · exact confinedAt_set (htolerant.update m r _)
  · exact confined_breach _ m

theorem confined_captureAll (base count : Nat) : Confined R (captureAll base count) := by
  induction count with
  | zero => exact confined_pure _
  | succ count ih =>
    refine confined_fetchByte.bind fun flag => confined_fetchShort.bind fun index => ?_
    have hrest (cell : Ref) : Confined R (do return cell :: (← captureAll base count)) :=
      ih.bind fun _ => confined_pure _
    dsimp only
    split
    · exact (confined_modifyGet fun m => tolerates_captureSlot m _).bind hrest
    · exact (confined_frameUpvalue _).bind hrest

theorem confined_makeClosure : Confined R makeClosure := by
  refine confined_fetchConstant.bind fun v => ?_
  split
  · refine confined_read fun m => ?_
    split
    · refine confined_frame.bind fun f => (confined_captureAll _ _).bind fun upvalues => ?_
      exact confined_pushObject _
    · exact confined_breach _
  · exact confined_breach _

theorem confined_closeTop : Confined R closeTop := by
  refine confined_get fun m => ?_
  split
  · exact confined_breach _ m
  · exact ConfinedAt.bind (tolerates_closeUpvalues m _) fun _ =>
      confined_pop.bind fun _ => confined_pure ()

/-! Leaving regions and frames. -/

theorem tolerates_reset (m : Machine) : R m m.reset :=
  htolerant.trans (tolerates_closeUpvalues m 0) (htolerant.aside rfl rfl)

theorem tolerates_popFrames (m : Machine) (depth : Nat) : R m (m.popFrames depth) := by
  have hclose (gone : List Frame) (m : Machine) :
      R m (gone.foldl (fun m f => m.closeUpvalues f.base) m) := by
    induction gone generalizing m with
    | nil => exact htolerant.aside rfl rfl
    | cons f gone ih => exact htolerant.trans (tolerates_closeUpvalues m f.base) (ih _)
  exact htolerant.trans (hclose _ m) (htolerant.aside rfl rfl)

theorem tolerates_unwindTo (m : Machine) (region : Region) (left : Nat) :
    R m (m.unwindTo region left) := by
  let completed : Machine :=
    { m with completions := m.completions.dropWhile fun p => decide (left < p.tryDepth) }
  have hcompleted : R m completed := htolerant.aside rfl rfl
  have hpopped := htolerant.trans hcompleted (tolerates_popFrames completed region.frameDepth)
  exact htolerant.trans (htolerant.trans hpopped (tolerates_closeUpvalues _ region.stackDepth))
    (htolerant.aside rfl rfl)

theorem confined_pushCompletion (completion : Completion) :
    Confined R (pushCompletion completion) := confined_modify fun _ => htolerant.aside rfl rfl

theorem confined_unhandled (e : Value) : Confined R (unhandled e : Exec α) := by
  refine confined_get fun m => ?_
  have hwritten (text : String) : R m (m.writeReport text) := htolerant.aside rfl rfl
  exact ConfinedAt.bind (htolerant.trans (hwritten _) (tolerates_reset _)) fun _ =>
    confined_throw _

theorem confined_accepts (region : Region) (e : Value) : Confined R (accepts region e) := by
  unfold accepts
  split
  · exact confined_pure _
  · exact confined_read fun m => (confined_settle _).bind fun _ => confined_pure _

theorem confined_propagateThrough (e : Value) (regions : List Region) :
    Confined R (propagateThrough e regions) := by
  induction regions with
  | nil =>
    exact Confined.bind (confined_modify fun _ => htolerant.aside rfl rfl) fun _ =>
      confined_unhandled e
  | cons region rest ih =>
    have hunwind : Confined R (modify fun m : Machine =>
        { m with regions := rest }.unwindTo region rest.length : Exec Unit) :=
      confined_modify fun m => by
        have hfewer : R m { m with regions := rest } := htolerant.aside rfl rfl
        exact htolerant.trans hfewer (tolerates_unwindTo _ region _)
    refine hunwind.bind fun _ => (confined_accepts region e).bind fun accepted => ?_
    split
    · exact (confined_push e).bind fun _ => confined_jumpTo _
    · exact (confined_pushCompletion _).bind fun _ => confined_jumpTo _
    · exact (confined_pushCompletion _).bind fun _ => confined_jumpTo _
    · exact ih

theorem confined_propagate (e : Value) : Confined R (propagate e) :=
  confined_read fun _ => confined_propagateThrough e _

theorem tolerates_internAll (lines : List String) (m : Machine) : R m (m.internAll lines).2 := by
  induction lines generalizing m with
  | nil => exact htolerant.aside rfl rfl
  | cons line rest ih => exact htolerant.trans (htolerant.intern m line) (ih _)

theorem tolerates_attachTrace (m : Machine) (e : Value) : R m (m.attachTrace e) := by
  unfold attachTrace
  split
  · have htrace := htolerant.trans (tolerates_internAll m.stackTrace m)
      (htolerant.alloc _ (.array (m.internAll m.stackTrace).1.toArray))
    exact htolerant.trans htrace (tolerates_setField _ _ _ _)
  · exact htolerant.aside rfl rfl

theorem confined_throwValue (e : Value) : Confined R (throwValue e) :=
  (confined_modify fun m => tolerates_attachTrace m e).bind fun _ => confined_propagate e

/-- What an action raises is thrown. -/
theorem ConfinedAt.throwing {action : Exec α} (haction : ConfinedAt R m action) (resume : α) :
    ConfinedAt R m (throwing resume action) := by
  unfold ConfinedAt Machine.throwing at *
  cases hres : action m with
  | ok a m' =>
    rw [hres] at haction
    exact haction
  | error s m' =>
    rw [hres] at haction
    cases s with
    | raised e =>
      have hthrown : Confined R (do throwValue e; return resume : Exec α) :=
        (confined_throwValue e).bind fun _ => confined_pure resume
      exact htolerant.trans haction (hthrown m')
    | _ => exact haction

theorem confined_enterTry : Confined R enterTry := by
  refine confined_fetchConstant.bind fun type => confined_fetchShort.bind fun handler => ?_
  refine confined_fetchShort.bind fun block => confined_get fun m => ?_
  dsimp only
  split
  · exact confined_misuse _ m
  · exact htolerant.aside rfl rfl

theorem confined_popTry : Confined R popTry := by
  refine confined_get fun m => ?_
  split
  · exact confined_breach _ m
  · refine ConfinedAt.bind (htolerant.aside rfl rfl) fun _ => ?_
    split
    · exact confined_pure _
    · exact confined_frame.bind fun f => (confined_pushCompletion _).bind fun _ => confined_jumpTo _

theorem confined_throwTop : Confined R throwTop := by
  refine confined_pop.bind fun e => confined_read fun m => (confined_settle _).bind fun found => ?_
  split
  · exact confined_throw _
  · exact confined_misuse _

theorem confined_leaveFrame (value : Value) : Confined R (leaveFrame value) := by
  refine confined_get fun m => ?_
  split
  · exact confined_breach _ m
  · next f rest _ =>
    have hpopped : R m { m with frames := rest } := htolerant.aside rfl rfl
    have hclosed := htolerant.trans hpopped (tolerates_closeUpvalues _ f.base)
    refine ConfinedAt.bind (htolerant.trans hclosed (htolerant.aside rfl rfl)) fun _ => ?_
    split
    · exact confined_pure _
    · exact (confined_push _).bind fun _ => confined_pure _

theorem confined_returnThrough (value : Value) (depth : Nat) (regions : List Region) :
    Confined R (returnThrough value depth regions) := by
  induction regions with
  | nil => exact confined_leaveFrame value
  | cons region rest ih =>
    unfold returnThrough
    split
    · refine Confined.bind (confined_modify fun _ => htolerant.aside rfl rfl) fun _ => ?_
      split
      · refine Confined.bind (confined_modify fun m => ?_) fun _ => ?_
        · exact htolerant.trans (tolerates_closeUpvalues m _) (htolerant.aside rfl rfl)
        · refine (confined_pushCompletion _).bind fun _ => (confined_jumpTo _).bind fun _ => ?_
          exact confined_pure _
      · exact ih
    · exact confined_leaveFrame value

theorem confined_finishReturn (value : Value) : Confined R (finishReturn value) :=
  confined_read fun _ => confined_returnThrough value _ _

theorem confined_complete (completion : Completion) : Confined R (complete completion) := by
  cases completion with
  | resume offset => exact (confined_jumpTo _).bind fun _ => confined_pure _
  | handle handler e =>
    exact (confined_push _).bind fun _ => (confined_jumpTo _).bind fun _ => confined_pure _
  | rethrow e => exact (confined_propagate _).bind fun _ => confined_pure _
  | giveBack value => exact confined_finishReturn _

theorem confined_endFinally : Confined R endFinally := by
  refine confined_get fun m => ?_
  split
  · exact confined_breach _ m
  · refine ConfinedAt.bind (htolerant.aside rfl rfl) fun _ => ?_
    split
    · exact confined_breach _
    · exact confined_complete _

end Machine

end ScriptMachine
