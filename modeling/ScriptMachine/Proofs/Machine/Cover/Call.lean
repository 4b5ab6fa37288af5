import ScriptMachine.Proofs.Machine.Cover.Request

/-!
Calls. What a call finds behind its callee is known, and a native runs on a receiver and arguments
that are on the stack. A native of the host ends the stretch; the stack stays as it is, so what the
machine needs after the native is still held.
-/

namespace ScriptMachine.Machine.World

variable {R : World → World → Prop} {w : World} {m : Machine} {host : Host}

/-! Callees. -/

/-- What is known of a callee. -/
def KnowsCallee (w : World) : Callee → Prop
  | .closure r proto => w.Has r ∧ ∃ c, w.code r (.closure c) ∧ c.proto = proto
  | .native _ => True
  | .bound b => w.Knows b.receiver ∧ w.Knows b.method
  | .cls r c => w.Has r ∧ w.Knows (Object.cls c)

theorem Covers.callee? (hm : w.Covers m) {v : Value} (hv : w.Knows v) {callee : Callee}
    (hcallee : m.heap.callee? v = some callee) : w.KnowsCallee callee := by
  unfold Heap.callee? at hcallee
  split at hcallee
  · rename_i r
    have hr := knows_ref.1 hv
    split at hcallee
    · rename_i c hc
      obtain rfl := Option.some.inj hcallee
      exact ⟨hr, c, (hm.heap.code _ _).2 ⟨rfl, hc⟩, rfl⟩
    · obtain rfl := Option.some.inj hcallee
      trivial
    · rename_i b hb
      obtain rfl := Option.some.inj hcallee
      exact knows_bound.1 (hm.heap.objects r _ hb)
    · rename_i c hc
      obtain rfl := Option.some.inj hcallee
      exact ⟨hr, hm.heap.objects r _ hc⟩
    · cases hcallee
  · cases hcallee

theorem KnowsCallee.mono {w' : World} {callee : Callee} (h : w.KnowsCallee callee) (hle : w ≤ w') :
    w'.KnowsCallee callee := by
  cases callee with
  | closure r proto =>
    obtain ⟨hr, c, hc, hproto⟩ := h
    exact ⟨hr.mono hle, c, hle.code _ _ hc, hproto⟩
  | native n => trivial
  | bound b => exact ⟨h.1.mono hle, h.2.mono hle⟩
  | cls r c => exact ⟨h.1.mono hle, h.2.mono hle⟩

/-- Bound methods lead to what is known. -/
theorem Covers.unbind (hm : w.Covers m) {fuel : Nat} {receiver? : Option Value} {v : Value}
    (hreceiver : w.Knows receiver?) (hv : w.Knows v) {p : Option Value × Value}
    (hunbind : m.heap.unbind fuel receiver? v = some p) : w.Knows p.1 ∧ w.Knows p.2 := by
  induction fuel generalizing receiver? v with
  | zero =>
    unfold Heap.unbind at hunbind
    split at hunbind
    · cases hunbind
    · obtain rfl := Option.some.inj hunbind
      exact ⟨hreceiver, hv⟩
  | succ fuel ih =>
    unfold Heap.unbind at hunbind
    split at hunbind
    · rename_i b hb
      obtain ⟨hbound, hmethod⟩ := hm.callee? hv hb
      exact ih (knows_some.2 hbound) hmethod hunbind
    · obtain rfl := Option.some.inj hunbind
      exact ⟨hreceiver, hv⟩

/-! Closures. -/

theorem grows_bindArguments (proto : Prototype) (count : Nat) :
    w.Grows (bindArguments proto count) := by
  let missing := Array.replicate (proto.arity - count) Value.nil
  have hmissing :
      w.Keeps (modify fun m : Machine => { m with stack := m.stack ++ missing } : Exec Unit) := by
    apply keeps_modify
    intro m hm
    apply hm.withStack
    intro v hv
    rcases Array.mem_append.1 hv with hold | hnil
    · exact hm.state.stack v hold
    · rw [(Array.mem_replicate.1 hnil).2]
      exact knows_nil
  unfold bindArguments
  dsimp only
  split
  · apply does_get
    intro m hm
    split
    · exact does_crash
    · refine (keeps_takeTop _).then fun rest hrest => hmissing.then fun _ _ => ?_
      have harray : w.Knows (Object.array rest) := hrest
      exact grows_pushNew fun m hm => hm.alloc harray nofun
  · exact hmissing.lift

theorem does_callClosure [Std.Refl R] [Trans (LE.le : World → World → Prop) R R] {r : Ref}
    {proto : Prototype} (hr : w.KnowsCallee (.closure r proto)) (count : Nat) :
    w.Does R (callClosure r proto count) := by
  apply does_get
  intro m hm
  split
  · exact does_misuse _
  · split
    · exact does_misuse _
    · split
      · exact does_fault _
      · refine (grows_bindArguments proto count).then fun u _ hle _ => ?_
        apply does_get
        intro m' hm'
        split
        · exact does_crash
        · refine Keeps.lift (keeps_set ⟨hm'.heap,
            { hm'.state with
              frames := ?_, kempt := fun hstart => (hm'.state.kempt hstart).enter _ }⟩)
          intro f hf
          rcases List.mem_cons.1 hf with rfl | hold
          · exact hr.mono hle
          · exact hm'.state.frames f hold

/-! Natives. -/

theorem Covers.rooted (hm : w.Covers m) {v : Value} (hv : m.Rooted v) : w.Knows v :=
  fun r hr => hm.held (held_iff.2 (Or.inl (hv r hr)))

/-- What stands on the stack is a root. -/
theorem rooted_of_mem {v : Value} (hv : v ∈ m.stack) : m.Rooted v :=
  fun _ hr => mem_roots_iff.2 (Or.inl ⟨v, hv, hr⟩)

theorem rooted_getD (i : Nat) : m.Rooted (m.stack.getD i .nil) := by
  have hnil : m.Rooted .nil := fun _ hr => absurd hr List.not_mem_nil
  exact ArraySlots.getD_of_forall (fun _ hv => rooted_of_mem hv) hnil i

/-- The message is an argument that is a text, or a new text. -/
theorem exceptionInit_cases (this : Value) (args : Array Value) (m : Machine) :
    (∃ v ∈ args, exceptionInit this args m =
      (some this, m.setField this (.ref m.builtins.message) v)) ∨
    ∃ text, exceptionInit this args m = (some this,
      (m.intern text).2.setField this (.ref m.builtins.message) (m.intern text).1) := by
  unfold exceptionInit
  cases hfirst : args[0]? with
  | none => exact Or.inr ⟨"", rfl⟩
  | some v =>
    by_cases htext : v.isText = true
    · refine Or.inl ⟨v, Array.mem_of_getElem? hfirst, ?_⟩
      simp only [htext, if_true]
      rfl
    · refine Or.inr ⟨m.render v, ?_⟩
      simp only [htext]
      rfl

theorem Covers.exceptionInit (hm : w.Covers m) {this : Value} {args : Array Value}
    (hthis : w.Knows this) (hargs : ∀ v ∈ args, w.Knows v) :
    w.Gives (exceptionInit this args m) ∧ (exceptionInit this args m).2.stack = m.stack := by
  rcases exceptionInit_cases this args m with ⟨v, hv, heq⟩ | ⟨text, heq⟩
  · rw [heq]
    refine ⟨⟨w, le_refl w, ?_, hthis⟩, stack_setField _ _ _ _⟩
    exact hm.setField this (knows_ref.2 hm.state.message) (hargs v hv)
  · rw [heq]
    obtain ⟨u, hle, hu, htext⟩ := hm.intern text
    refine ⟨⟨u, hle, ?_, hthis.mono hle⟩, stack_setField _ _ _ _⟩
    exact hu.setField this (knows_ref.2 hu.state.message) htext

/-- A native runs on what is held, and leaves the stack as it is. -/
theorem Covers.native (horderly : host.Orderly) (hm : w.Covers m) (routine : Routine)
    {receiver : Value} {args : Array Value} (hreceiver : m.Rooted receiver)
    (hargs : ∀ v ∈ args, m.Rooted v) :
    (∃ u, Reaches host w u ∧ u.Covers (native host routine receiver args m).2 ∧
      u.Knows (native host routine receiver args m).1) ∧
      (native host routine receiver args m).2.stack = m.stack := by
  cases routine with
  | exceptionInit =>
    obtain ⟨⟨u, hle, hu⟩, hstack⟩ := hm.exceptionInit (hm.rooted hreceiver) fun v hv =>
      hm.rooted (hargs v hv)
    exact ⟨⟨u, Trans.trans hle (Std.Refl.refl (r := Reaches host) u), hu⟩, hstack⟩
  | host name =>
    obtain ⟨hserved, hresult⟩ := horderly name receiver args m hm.sound hreceiver hargs
    obtain ⟨hsound, hstack, g, hserving, hlive⟩ := hserved.serving hm.sound hm.live
    let τ : Stretch :=
      ⟨(host name receiver args m).2, g, ((host name receiver args m).1.map Value.refs).getD []⟩
    have hpassed : ∀ r ∈ τ.passed, τ.start.heap.Occupied r := by
      intro r hr
      cases hvalue : (host name receiver args m).1 with
      | none => simp [τ, hvalue] at hr
      | some v => exact hresult v hvalue r (by simpa [τ, hvalue] using hr)
    refine ⟨⟨start τ, ?_, covers_start hsound hlive hpassed, fun r hr => Or.inr (Or.inl hr)⟩, hstack⟩
    exact ⟨.native .refl hm.heap.grows hm.live hreceiver hargs rfl hserving,
      fun hstart => (hm.state.kempt hstart).served hm.sound hserved⟩

theorem runRoutine_eq (routine : Routine) (receiver : Value) (args : Array Value) (m : Machine) :
    runRoutine host routine receiver args m =
      match native host routine receiver args m with
      | (some v, m') => .ok v m'
      | (none, m') =>
        match m'.raised? with
        | some e => .error (.raised e) { m' with raised? := none }
        | none => .error (.fault (.internal .nothingRaised)) m' := by
  unfold runRoutine
  rw [modifyGet_bind]
  rcases native host routine receiver args m with ⟨_ | v, m'⟩
  · dsimp only
    rw [get_bind]
    cases m'.raised? <;> rfl
  · rfl

theorem ends_runRoutine (horderly : host.Orderly) (hm : w.Covers m) (routine : Routine)
    {receiver : Value} {args : Array Value} (hreceiver : m.Rooted receiver)
    (hargs : ∀ v ∈ args, m.Rooted v) :
    w.Ends (Reaches host) (runRoutine host routine receiver args m) := by
  obtain ⟨⟨u, hreaches, hu, hresult⟩, -⟩ := hm.native horderly routine hreceiver hargs
  rw [runRoutine_eq]
  revert hu hresult
  rcases native host routine receiver args m with ⟨_ | v, m'⟩
  · intro hu _
    dsimp only
    split
    · rename_i e he
      have hraised := hu.state.raised
      rw [he] at hraised
      exact ⟨u, hreaches, ⟨hu.heap, { hu.state with raised := knows_none }⟩, hraised⟩
    · exact ⟨u, hreaches, hu, knows_plain rfl⟩
  · intro hu hresult
    exact ⟨u, hreaches, hu, hresult⟩

theorem stack_runRoutine (horderly : host.Orderly) (hm : w.Covers m) {routine : Routine}
    {receiver : Value} {args : Array Value} (hreceiver : m.Rooted receiver)
    (hargs : ∀ v ∈ args, m.Rooted v) {v : Value} {m' : Machine}
    (hrun : runRoutine host routine receiver args m = .ok v m') : m'.stack = m.stack := by
  obtain ⟨-, hstack⟩ := hm.native horderly routine hreceiver hargs
  rw [← hstack]
  rw [runRoutine_eq] at hrun
  split at hrun
  · rename_i m'' hnative
    cases hrun
    rw [hnative]
  · split at hrun <;> cases hrun

theorem calleeSlot_of_lt {count : Nat} (hcount : count < m.stack.size) :
    calleeSlot count m = .ok (m.stack.size - (count + 1)) m := by
  unfold calleeSlot
  rw [get_bind, if_pos hcount]
  rfl

theorem calleeSlot_of_le {count : Nat} (hcount : m.stack.size ≤ count) :
    calleeSlot count m = .error (.fault (.internal .stackUnderflow)) m := by
  unfold calleeSlot
  rw [get_bind, if_neg (Nat.not_lt_of_le hcount)]
  rfl

/-- A native that is called runs on the receiver and the arguments on the stack, unless the call is
refused. -/
theorem runNative_cases (n : NativeFunction) (count : Nat) (m : Machine) :
    (∃ what, runNative host n count m = misuse what m) ∨
    runNative host n count m = breach .stackUnderflow m ∨
    count < m.stack.size ∧ runNative host n count m = runRoutine host n.routine
      (m.stack.getD (m.stack.size - (count + 1)) .nil)
      (m.stack.extract (m.stack.size - (count + 1) + 1) m.stack.size) m := by
  have hcall {f : Nat → Exec Value} :
      (calleeSlot count >>= f) m = breach .stackUnderflow m ∨
        count < m.stack.size ∧ (calleeSlot count >>= f) m = f (m.stack.size - (count + 1)) m := by
    by_cases hcount : count < m.stack.size
    · exact Or.inr ⟨hcount, bind_of_ok (calleeSlot_of_lt hcount) f⟩
    · exact Or.inl (bind_of_error (calleeSlot_of_le (Nat.le_of_not_lt hcount)) f)
  unfold runNative
  dsimp only
  cases n.arity with
  | none => exact Or.inr hcall
  | some arity =>
    by_cases hne : count ≠ arity
    · simp only [if_pos hne]
      exact Or.inl ⟨_, rfl⟩
    · simp only [if_neg hne]
      exact Or.inr hcall

theorem runs_runNative (horderly : host.Orderly) (n : NativeFunction) (count : Nat) :
    w.Runs host (runNative host n count) := by
  intro m hm
  rcases runNative_cases n count m with ⟨what, heq⟩ | heq | ⟨-, heq⟩
  · rw [heq]
    exact does_misuse what m hm
  · rw [heq]
    exact does_breach _ m hm
  · rw [heq]
    exact ends_runRoutine horderly hm n.routine (rooted_getD _)
      (fun _ hv => rooted_of_mem (ArraySlots.mem_of_mem_extract hv))

theorem stack_runNative (horderly : host.Orderly) (hm : w.Covers m) {n : NativeFunction}
    {count : Nat} {v : Value} {m' : Machine} (hrun : runNative host n count m = .ok v m') :
    m'.stack = m.stack := by
  rcases runNative_cases n count m with ⟨what, heq⟩ | heq | ⟨-, heq⟩
  · rw [heq] at hrun
    cases hrun
  · rw [heq] at hrun
    cases hrun
  · rw [heq] at hrun
    exact stack_runRoutine horderly hm (rooted_getD _)
      (fun _ hv => rooted_of_mem (ArraySlots.mem_of_mem_extract hv)) hrun

theorem keeps_replaceFrom (base : Nat) {v : Value} (hv : w.Knows v) :
    w.Keeps (replaceFrom base v) :=
  (keeps_modify fun _ hm => hm.truncate base).then fun _ _ => keeps_push hv

theorem runs_callNative (horderly : host.Orderly) (n : NativeFunction) (count : Nat) :
    w.Runs host (callNative host n count) := by
  refine (keeps_calleeSlot count).then fun base _ => ?_
  exact (runs_runNative horderly n count).then fun u v hv => (keeps_replaceFrom base hv).lift

/-- A native constructor ran on a receiver in a slot of the stack, and the receiver takes the place
of the call. -/
theorem ends_construct (horderly : host.Orderly) (hm : w.Covers m) (n : NativeFunction)
    (count base : Nat) : w.Ends (Reaches host) ((do
      let _ ← runNative host n count
      replaceFrom base (m.stack.getD base .nil) : Exec Unit) m) := by
  refine (runs_runNative horderly n count m hm).bind (fun hS hR => Trans.trans hS hR)
    (fun _ hu => hu) ?_
  intro u v m' hrun _ hm' _
  have hthis : u.Knows (m.stack.getD base .nil) := by
    rw [← stack_runNative horderly hm hrun]
    exact knows_getD hm'.state.stack base
  exact (keeps_replaceFrom base hthis).lift m' hm'

/-! Classes. -/

theorem Covers.class? (hm : w.Covers m) {r : Ref} {c : Class} (hc : m.heap.class? r = some c) :
    w.Knows (Object.cls c) := by
  unfold Heap.class? at hc
  split at hc
  · rename_i c' hget
    obtain rfl := Option.some.inj hc
    exact hm.heap.objects r _ hget
  · cases hc

theorem Covers.chain (hm : w.Covers m) {fuel : Nat} {r : Ref} {classes : List Class}
    (hchain : m.heap.chain fuel r = some classes) : ∀ c ∈ classes, w.Knows (Object.cls c) := by
  induction fuel generalizing r classes with
  | zero => cases hchain
  | succ fuel ih =>
    unfold Heap.chain at hchain
    split at hchain
    · obtain rfl := Option.some.inj hchain
      nofun
    · rename_i c hc
      have hknows := hm.class? hc
      split at hchain
      · obtain rfl := Option.some.inj hchain
        intro c' hc'
        rwa [List.mem_singleton.1 hc']
      · obtain ⟨rest, hrest, rfl⟩ := Option.map_eq_some_iff.1 hchain
        intro c' hc'
        rcases List.mem_cons.1 hc' with rfl | hmem
        · exact hknows
        · exact ih hrest c' hmem

theorem Covers.initialFields? (hm : w.Covers m) {r : Ref} {fields : Table}
    (hfields : m.heap.initialFields? r = some fields) : w.Knows fields := by
  have hfold (classes : List Class) (t : Table) (ht : w.Knows t)
      (hclasses : ∀ c ∈ classes, w.Knows c.defaults) :
      w.Knows (classes.foldl (fun fields c => fields.addAll m.heap.pool c.defaults) t) := by
    induction classes generalizing t with
    | nil => exact ht
    | cons c classes ih =>
      apply ih
      · exact ht.addAll _ (hclasses c List.mem_cons_self)
      · exact fun c' hc' => hclasses c' (List.mem_cons_of_mem c hc')
  obtain ⟨classes, hchain, rfl⟩ := Option.map_eq_some_iff.1 hfields
  apply hfold _ _ knows_empty
  intro c hc
  exact (knows_cls.1 (hm.chain hchain c (List.mem_reverse.1 hc))).2.2.2.1

/-- A constructor runs on an instance that stands on the stack. -/
theorem ends_constructor (horderly : host.Orderly) (hm : w.Covers m) {c : Class}
    (hc : w.Knows (Object.cls c)) {count base : Nat} {this : Value}
    (hthis : m.stack.getD base .nil = this) :
    w.Ends (Reaches host) (construct host c base this count m) := by
  unfold construct
  rw [get_bind]
  cases hcallee : c.constructor?.bind m.heap.callee? with
  | none =>
    dsimp only
    split
    · exact does_misuse _ m hm
    · exact does_pure (knows_plain rfl) m hm
  | some callee =>
    obtain ⟨ctor, hctor, hfound⟩ := Option.bind_eq_some_iff.1 hcallee
    have hknows := (knows_cls.1 hc).2.2.2.2.2
    rw [hctor] at hknows
    have hcallable := hm.callee? (knows_some.1 hknows) hfound
    cases callee with
    | closure r proto => exact does_callClosure hcallable count m hm
    | native n =>
      rw [← hthis]
      exact ends_construct horderly hm n count base
    | bound b => exact does_breach _ m hm
    | cls r c => exact does_breach _ m hm

theorem runs_instantiate (horderly : host.Orderly) {r : Ref} {c : Class}
    (hcls : w.KnowsCallee (.cls r c)) (count : Nat) : w.Runs host (instantiate host r c count) := by
  intro m hm
  unfold instantiate
  by_cases hcount : count < m.stack.size
  · let base := m.stack.size - (count + 1)
    rw [bind_of_ok (calleeSlot_of_lt hcount), get_bind]
    cases hfields : m.heap.initialFields? r with
    | none => exact does_endless (α := Unit) m hm
    | some fields =>
      have hinst : w.Knows (Object.inst { cls := r, fields }) :=
        knows_inst.2 ⟨hcls.1, hm.initialFields? hfields⟩
      obtain ⟨u, hle, hu, hthis⟩ := hm.alloc hinst nofun
      have hplaced : (m.stack.setIfInBounds base (m.alloc (.inst { cls := r, fields })).1).getD base
          .nil = (m.alloc (.inst { cls := r, fields })).1 := by
        have hbase : base < m.stack.size := by omega
        rw [Array.getD_eq_getD_getElem?, Array.getElem?_setIfInBounds_self_of_lt hbase]
        rfl
      exact Ends.after hle
        (ends_constructor horderly (hu.setSlot base hthis) (hcls.2.mono hle) hplaced)
  · rw [bind_of_error (calleeSlot_of_le (Nat.le_of_not_lt hcount))]
    exact does_breach (α := Unit) _ m hm

theorem runs_callTarget (horderly : host.Orderly) (hm : w.Covers m) {target : Value}
    (htarget : w.Knows target) (count : Nat) : w.Runs host (callTarget host m target count) := by
  unfold callTarget
  split
  · rename_i r proto hcallee
    exact does_callClosure (hm.callee? htarget hcallee) count
  · exact runs_callNative horderly _ count
  · rename_i r c hcallee
    exact runs_instantiate horderly (hm.callee? htarget hcallee) count
  · exact does_misuse _

theorem runs_callValue (horderly : host.Orderly) {v : Value} (hv : w.Knows v) (count : Nat) :
    w.Runs host (callValue host v count) := by
  apply does_get
  intro m hm
  split
  · exact does_endless
  · rename_i receiver? target hunbind
    obtain ⟨hreceiver, htarget⟩ := hm.unbind knows_none hv hunbind
    have hcall := runs_callTarget horderly hm htarget count
    dsimp only
    split
    · refine (keeps_calleeSlot count).then fun base _ => ?_
      exact (keeps_setSlot base (knows_some.1 hreceiver)).then fun _ _ => hcall
    · exact hcall

end ScriptMachine.Machine.World
