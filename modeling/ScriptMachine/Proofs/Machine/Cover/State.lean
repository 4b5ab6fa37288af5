import ScriptMachine.Proofs.Machine.Judgement

/-!
The smallest actions. A value comes off the stack, out of a frame or out of the heap of a covered
machine, so it is known, and what is known may go back to any of them.
-/

namespace ScriptMachine.Machine.World

open ArraySlots

variable {α : Type} [Linked α] {R : World → World → Prop} {w : World} {m : Machine}

/-! Heap. -/

theorem Covers.alloc (hm : w.Covers m) {o : Object} (ho : w.Knows o)
    (hpaired : ∀ c, o = .closure c → w.code c.function (.function c.proto)) :
    w.Gives (m.alloc o) := by
  obtain ⟨w', hle, hheap, hhas, -⟩ := hm.heap.alloc ho hpaired
  have hkempt := fun hk : m.Kempt => Heap.Kempt.alloc hk fun s hs => hm.heap.occupied (ho s hs)
  exact ⟨w', hle, ⟨hheap, (hm.state.mono hle).withHeap hkempt⟩, knows_ref.2 hhas⟩

theorem Covers.intern (hm : w.Covers m) (text : String) : w.Gives (m.intern text) := by
  obtain ⟨w', hle, hheap, hhas⟩ := hm.heap.intern text
  have hkempt := fun hk : m.Kempt => Heap.Kempt.intern hk text
  exact ⟨w', hle, ⟨hheap, (hm.state.mono hle).withHeap hkempt⟩, knows_ref.2 hhas⟩

/-- A change of an object that leaves code, bound methods and open cells alone. -/
def Edits (o o' : Object) : Prop :=
  o' = o ∨ o.isCode = false ∧ o'.isCode = false ∧ o'.method? = o.method? ∧ o'.slot? = o.slot?

theorem Covers.update (hm : w.Covers m) {r : Ref} {f : Object → Object}
    (hrefs : ∀ o, m.heap.get? r = some o → w.Knows (f o))
    (hedits : ∀ o, m.heap.get? r = some o → Edits o (f o)) : w.Covers (m.update r f) := by
  refine ⟨hm.heap.update hrefs fun o ho => ?_, hm.state.withHeap fun hk =>
    Heap.Kempt.update hk (fun o ho => ?_) fun o ho => ?_⟩
  · exact (hedits o ho).imp_right fun h => ⟨h.1, h.2.1⟩
  · rcases hedits o ho with heq | ⟨-, -, hmethod, -⟩
    · rw [heq]
    · exact hmethod
  · rcases hedits o ho with heq | ⟨-, -, -, hslot⟩
    · rw [heq]
    · exact hslot

/-- What a reference of an object leads to. -/
theorem Covers.object (hm : w.Covers m) {v : Value} {o : Object} (ho : m.heap.object? v = some o) :
    w.Knows o := by
  cases v with
  | ref r => exact hm.heap.objects r o ho
  | _ => cases ho

theorem Covers.setField (hm : w.Covers m) (target : Value) {key value : Value}
    (hkey : w.Knows key) (hvalue : w.Knows value) : w.Covers (m.setField target key value) := by
  unfold Machine.setField
  split
  · apply hm.update
    · intro o ho
      have hknows := hm.heap.objects _ o ho
      cases o with
      | inst i =>
        rw [knows_inst] at hknows ⊢
        exact ⟨hknows.1, hknows.2.set _ hkey hvalue⟩
      | _ => exact hknows
    · intro o _
      cases o with
      | inst i => exact Or.inr ⟨rfl, rfl, rfl, rfl⟩
      | _ => exact Or.inl rfl
  · exact hm

theorem Covers.makeException (hm : w.Covers m) (kind : ExceptionKind) (message : String) :
    w.Gives (m.makeException kind message) := by
  have hinst : w.Knows (Object.inst { cls := m.builtins.exception kind }) :=
    knows_inst.2 ⟨hm.state.exceptions kind, knows_empty⟩
  obtain ⟨u, hwu, hu, he⟩ := hm.alloc hinst nofun
  obtain ⟨v, huv, hv, htext⟩ := hu.intern message
  have hfield := hv.setField (m.alloc (.inst { cls := m.builtins.exception kind })).1
    (knows_ref.2 hv.state.message) htext
  exact ⟨v, hwu.trans huv, hfield, he.mono huv⟩

theorem Covers.defineGlobal (hm : w.Covers m) (name : String) {value : Value}
    (hvalue : w.Knows value) : ∃ w', w ≤ w' ∧ w'.Covers (m.defineGlobal name value) := by
  obtain ⟨u, hle, hu, hkey⟩ := hm.intern name
  refine ⟨u, hle, hu.heap, { hu.state with globals := ?_ }⟩
  exact hu.state.globals.set _ hkey (hvalue.mono hle)

/-! Signals. -/

theorem does_fault [Std.Refl R] (f : Fault) : w.Does R (fault f : Exec α) :=
  does_throw (knows_plain rfl)

theorem does_breach [Std.Refl R] (b : Breach) : w.Does R (breach b : Exec α) := does_fault _

theorem does_malformed [Std.Refl R] (offset : Nat) (d : Defect) :
    w.Does R (malformed offset d : Exec α) := does_fault _

theorem does_endless [Std.Refl R] : w.Does R (throw .endless : Exec α) :=
  does_throw (knows_plain rfl)

theorem does_crash [Std.Refl R] : w.Does R (throw .crash : Exec α) :=
  does_throw (knows_plain rfl)

theorem does_misuse [Std.Refl R] [Trans (LE.le : World → World → Prop) R R] (what : Misuse) :
    w.Does R (misuse what : Exec α) := by
  have hmake : w.Grows (modifyGet fun m : Machine => m.makeException what.kind what.message :
      Exec Value) := grows_modifyGet fun m hm => hm.makeException _ _
  exact hmake.then fun w' e _ he => does_throw he

theorem keeps_settle {s : Search α} (hs : ∀ a, s = .found a → w.Knows a) : w.Keeps (settle s) := by
  cases s with
  | found a => exact does_pure (hs a rfl)
  | absent => exact does_pure knows_none
  | endless => exact does_endless

/-! Stack. -/

theorem Covers.withStack (hm : w.Covers m) {stack : Array Value}
    (hstack : ∀ v ∈ stack, w.Knows v) : w.Covers { m with stack } :=
  ⟨hm.heap, { hm.state with stack := hstack }⟩

theorem Covers.truncate (hm : w.Covers m) (size : Nat) : w.Covers (m.truncate size) := by
  apply hm.withStack
  intro v hv
  exact hm.state.stack v (mem_of_mem_shrink hv)

theorem keeps_push {v : Value} (hv : w.Knows v) : w.Keeps (push v) := by
  apply keeps_modify
  intro m hm
  apply hm.withStack
  intro u hu
  rcases Array.mem_push.1 hu with hold | rfl
  · exact hm.state.stack u hold
  · exact hv

/-- What was just made is pushed. -/
theorem grows_pushNew {f : Machine → Value × Machine} (hf : ∀ m, w.Covers m → w.Gives (f m)) :
    w.Grows (do push (← modifyGet f)) :=
  (grows_modifyGet hf).then fun _ _ _ hv => (keeps_push hv).lift

theorem keeps_pop : w.Keeps pop := by
  apply does_get
  intro m hm
  split
  · rename_i v hv
    have hpop : w.Covers { m with stack := m.stack.pop } :=
      hm.withStack fun u hu => hm.state.stack u (mem_of_mem_pop hu)
    exact (keeps_set hpop).then fun _ _ => does_pure (hm.state.stack v (Array.mem_of_back? hv))
  · exact does_breach _

theorem keeps_peek (distance : Nat) : w.Keeps (peek distance) := by
  apply does_get
  intro m hm
  split
  · exact does_pure (knows_getD hm.state.stack _)
  · exact does_breach _

theorem keeps_drop (count : Nat) : w.Keeps (drop count) := by
  apply does_get
  intro m hm
  split
  · exact keeps_set (hm.truncate _)
  · exact does_breach _

theorem Covers.setSlot (hm : w.Covers m) (slot : Nat) {v : Value} (hv : w.Knows v) :
    w.Covers { m with stack := m.stack.setIfInBounds slot v } := by
  apply hm.withStack
  intro u hu
  rcases Array.mem_or_eq_of_mem_setIfInBounds hu with hold | rfl
  · exact hm.state.stack u hold
  · exact hv

theorem keeps_setSlot (slot : Nat) {v : Value} (hv : w.Knows v) : w.Keeps (setSlot slot v) :=
  keeps_modify fun _ hm => hm.setSlot slot hv

theorem keeps_setTop {v : Value} (hv : w.Knows v) : w.Keeps (setTop v) := by
  apply does_get
  intro m hm
  split
  · exact does_breach _
  · exact keeps_set (hm.setSlot _ hv)

theorem keeps_takeTop (count : Nat) : w.Keeps (takeTop count) := by
  apply does_get
  intro m hm
  split
  · refine (keeps_set (hm.truncate _)).then fun _ _ => does_pure (knows_array.2 ?_)
    exact fun v hv => hm.state.stack v (mem_of_mem_extract hv)
  · exact does_breach _

theorem keeps_calleeSlot (count : Nat) : w.Keeps (calleeSlot count) := by
  apply does_get
  intro m hm
  split
  · exact does_pure (knows_plain rfl)
  · exact does_breach _

/-! Frames. -/

theorem Covers.frame (hm : w.Covers m) {f : Frame} (hf : f ∈ m.frames) : w.Knows f := by
  obtain ⟨hclosure, c, hc, hproto⟩ := hm.state.frames f hf
  have hfunction := hm.heap.paired _ c hc
  rw [hproto] at hfunction
  refine List.forall_mem_cons.2 ⟨hclosure, ?_⟩
  exact knows_array.2 fun v hv => hm.heap.constants hfunction hv

theorem keeps_frame : w.Keeps frame := by
  apply does_get
  intro m hm
  split
  · rename_i f rest hframes
    exact does_pure (hm.frame (hframes ▸ List.mem_cons_self))
  · exact does_breach _

/-- A frame keeps its closure, its function and its place on the stack. -/
theorem keeps_modifyFrame {g : Frame → Frame} (hclosure : ∀ f, (g f).closure = f.closure)
    (hproto : ∀ f, (g f).proto = f.proto) (hbase : ∀ f, (g f).base = f.base) :
    w.Keeps (modifyFrame g) := by
  apply does_get
  intro m hm
  split
  · rename_i f rest hframes
    refine keeps_set ⟨hm.heap, { hm.state with frames := ?_, kempt := ?_ }⟩
    · intro f' hf'
      rcases List.mem_cons.1 hf' with rfl | hmem
      · rw [hclosure, hproto]
        exact hm.state.frames f (hframes ▸ List.mem_cons_self)
      · exact hm.state.frames f' (hframes ▸ List.mem_cons_of_mem f hmem)
    · refine fun hstart => (hm.state.kempt hstart).withFrames ?_
      rw [hframes, List.map_cons, List.map_cons, hbase]
  · exact does_breach _

theorem keeps_jumpTo (offset : Nat) : w.Keeps (jumpTo offset) :=
  keeps_modifyFrame (fun _ => rfl) (fun _ => rfl) fun _ => rfl

theorem keeps_jumpBy (distance : Nat) : w.Keeps (jumpBy distance) :=
  keeps_modifyFrame (fun _ => rfl) (fun _ => rfl) fun _ => rfl

theorem keeps_localSlot (slot : Nat) : w.Keeps (localSlot slot) := by
  refine keeps_frame.then fun f _ => ?_
  apply does_get
  intro m hm
  split
  · exact does_pure (knows_plain rfl)
  · exact does_breach _

/-! Operands. -/

theorem keeps_fetchByte : w.Keeps fetchByte := by
  refine keeps_frame.then fun f _ => ?_
  split
  · exact (keeps_jumpTo _).then fun _ _ => does_pure (knows_plain rfl)
  · exact does_malformed _ _

theorem keeps_fetchShort : w.Keeps fetchShort := by
  refine keeps_fetchByte.then fun high _ => keeps_fetchByte.then fun low _ => ?_
  exact does_pure (knows_plain rfl)

theorem keeps_fetchConstant : w.Keeps fetchConstant := by
  refine keeps_fetchShort.then fun index _ => keeps_frame.then fun f hf => ?_
  split
  · rename_i v hv
    exact does_pure (knows_array.1 (List.forall_mem_cons.1 hf).2 v (Array.mem_of_getElem? hv))
  · exact does_malformed _ _

end ScriptMachine.Machine.World
