import ScriptMachine.Proofs.Machine.Cover.Invocation
import ScriptMachine.Proofs.Machine.Footing.Data
import ScriptMachine.Proofs.Machine.Safety.Call
import ScriptMachine.Proofs.Machine.Turn.Operations

/-!
Classes, properties and methods. An invocation looks at the slot of its receiver first, and a getter
at the slot of the value it is read from, so the calls they end in are safe. The invocations of a
superclass look at nothing but the class on top. Letting a class inherit is the one action that gives
a class a superclass, and reading a method the one that binds it.
-/

namespace ScriptMachine.Machine

open World

variable {α β : Type} {low : Prop} {I : Heap → Prop} {host : Host} {m : Machine} {h : Heap}

/-! Searches. -/

theorem settle_ok {s : Search α} {a : Option α} {m' : Machine} (hok : settle s m = .ok a m') :
    m' = m := by
  cases s <;> cases hok <;> rfl

theorem pop_ok {m' : Machine} {v : Value} (hok : pop m = .ok v m') :
    m.stack.back? = some v ∧ m' = { m with stack := m.stack.pop } := by
  rcases pop_cases m with ⟨w, hback, hpop⟩ | herror
  · rw [hpop] at hok
    cases hok
    exact ⟨hback, rfl⟩
  · rw [herror] at hok
    cases hok

/-- An action that leaves the stack alone, and one that relies on its height. -/
theorem Guards.thenAbove {x : Exec α} {f : α → Exec β} {count : Nat} (hx : Guards low I x)
    (hstack : ∀ {m a m'}, x m = .ok a m' → m'.stack = m.stack)
    (hf : ∀ a, GuardsAbove low I count (f a)) : GuardsAbove low I count (x >>= f) := by
  intro m hm hcount
  refine (hx m hm).bindAt fun a m' hok hm' => hf a m' hm' ?_
  rw [hstack hok]
  exact hcount

theorem guards_findMethod (cls : Ref) (name : Value) : Guards low I (findMethod cls name) :=
  guards_get fun _ hm => guardsAt_settle hm Heap.circular_of_climb

theorem guardsAbove_findMethod {cls : Ref} {name : Value} {f : Option Entry → Exec α} {count : Nat}
    (hf : ∀ found, GuardsAbove low I count (f found)) :
    GuardsAbove low I count (findMethod cls name >>= f) := by
  refine (guards_findMethod cls name).thenAbove (fun {m a m'} hok => ?_) hf
  rw [settle_ok (s := m.heap.findMethod cls name) hok]

theorem guards_primitiveMethod (receiver name : Value) :
    Guards low I (primitiveMethod receiver name) := by
  refine guards_get fun m hm => ?_
  split
  · exact guardsAt_settle hm Heap.circular_of_climb
  · exact guards_pure _ m hm

theorem guardsAbove_primitiveMethod {receiver name : Value} {f : Option Entry → Exec α}
    {count : Nat} (hf : ∀ found, GuardsAbove low I count (f found)) :
    GuardsAbove low I count (primitiveMethod receiver name >>= f) := by
  refine (guards_primitiveMethod receiver name).thenAbove (fun {m a m'} hok => ?_) hf
  unfold primitiveMethod at hok
  rw [get_bind] at hok
  cases hkind : m.heap.primitive? receiver with
  | none =>
    rw [hkind] at hok
    cases hok
    rfl
  | some p =>
    rw [hkind] at hok
    rw [settle_ok (s := m.heap.findMethod (m.builtins.primitive p) name) hok]

/-- A value that was seen below others stands on the stack. -/
theorem guards_peek_bind {distance : Nat} {f : Value → Exec α}
    (hf : ∀ v, GuardsAbove low I distance (f v)) : Guards low I (peek distance >>= f) := by
  intro m hm
  unfold GuardsAt
  by_cases hdistance : distance < m.stack.size
  · rw [bind_of_ok (peek_of_lt hdistance)]
    exact hf _ m hm (Or.inr hdistance)
  · rw [bind_of_error (peek_of_le (Nat.le_of_not_lt hdistance))]
    exact ⟨hm, trivial⟩

theorem guards_popClass : Guards low I popClass := by
  refine guards_pop.bind fun v => ?_
  split
  · refine guards_read fun m => ?_
    split
    · exact guards_pure _
    · exact guards_breach _
  · exact guards_breach _

/-- The class on top is popped, and the stack below it is as high as before. -/
theorem guardsAbove_popClass {f : Ref → Exec α} {count : Nat}
    (hf : ∀ r, GuardsAbove low I count (f r)) : GuardsAbove low I (count + 1) (popClass >>= f) := by
  intro m hm hcount
  unfold GuardsAt
  rcases popClass_cases m with ⟨r, hok⟩ | ⟨b, q, herror⟩
  · rw [bind_of_ok hok]
    refine hf r { m with stack := m.stack.pop } hm (hcount.imp_right fun hcount => ?_)
    rw [Array.size_pop]
    omega
  · have hpopped : GuardsAt low I m popClass := guards_popClass m hm
    unfold GuardsAt at hpopped
    rw [herror] at hpopped
    rw [bind_of_error herror]
    exact hpopped

/-! Classes. -/

variable [hlasting : LastingOutsideDicts I]

theorem guards_modifyClass (v : Value) {g : Pool → Class → Class}
    (hg : ∀ pool c, (g pool c).superclass = c.superclass) : Guards low I (modifyClass v g) := by
  refine guards_get fun m hm => ?_
  split
  · split
    · refine guardsAt_setUpdate hm (fun o _ => ?_) fun o _ => ?_
      · cases o with
        | cls c => exact congrArg (fun s => (some s, none)) (hg m.heap.pool c)
        | _ => rfl
      · cases o with
        | cls c => exact Or.inr ⟨rfl, rfl⟩
        | _ => exact Or.inl rfl
    · exact guards_breach _ m hm
  · exact guards_breach _ m hm

theorem guards_makeClass (name : Value) : Guards low I (makeClass name) :=
  guards_pushNew fun _ hm => hlasting.alloc hm ⟨nofun, rfl⟩ rfl

theorem guards_makeMethod (name : Value) : Guards low I (makeMethod name) := by
  refine guards_pop.bind fun method => guards_read fun m => (guards_peek 0).bind fun cls => ?_
  refine guards_modifyClass cls fun pool c => ?_
  split <;> rfl

theorem guards_defineProperty (name : Value) (isStatic : Bool) :
    Guards low I (defineProperty name isStatic) := by
  refine guards_pop.bind fun value => (guards_peek 0).bind fun cls => ?_
  refine guards_modifyClass cls fun pool c => ?_
  split <;> rfl

/-- What a heap becomes when the class on top of the stack gets the class below it as superclass. -/
structure Inheriting (m : Machine) (r s : Ref) (h : Heap) : Prop where
  high : 1 < m.stack.size
  subclass : m.stack.back? = some (.ref r)
  superclass : m.stack.getD (m.stack.size - 2) .nil = .ref s
  heap : ∃ c parent, m.heap.class? r = some c ∧ m.heap.class? s = some parent ∧
    h = m.heap.update r fun
      | .cls c => .cls (c.inheriting m.heap.pool (.ref s) parent)
      | o => o

theorem classOf?_eq_some {v : Value} {c : Class} (hc : m.classOf? v = some c) :
    ∃ s, v = .ref s ∧ m.heap.class? s = some c := by
  unfold classOf? at hc
  cases v with
  | ref s => exact ⟨s, rfl, hc⟩
  | _ => cases hc

theorem isClass_iff {h : Heap} {r : Ref} : h.isClass r = true ↔ ∃ c, h.class? r = some c := by
  unfold Heap.isClass Heap.class?
  cases h.get? r with
  | none => simp
  | some o => cases o <;> simp [Object.isClass]

theorem inherit_cases (m : Machine) :
    (∃ what, inherit m = misuse what m) ∨
    (∃ b q, inherit m = .error (.fault (.internal b)) q ∧ q.heap = m.heap) ∨
    ∃ r s m', inherit m = .ok () m' ∧ m.Inheriting r s m'.heap := by
  unfold inherit
  by_cases hlow : 1 < m.stack.size
  · rw [bind_of_ok (peek_of_lt hlow), get_bind]
    cases hclass : m.classOf? (m.stack.getD (m.stack.size - (1 + 1)) .nil) with
    | none => exact Or.inl ⟨_, rfl⟩
    | some parent =>
      obtain ⟨s, hsuper, hparent⟩ := classOf?_eq_some hclass
      dsimp only
      rcases pop_cases m with ⟨v, hv, hpop⟩ | hpop
      · rw [bind_of_ok hpop]
        unfold modifyClass
        rw [get_bind]
        cases v with
        | ref r =>
          cases hsub : m.heap.isClass r with
          | true =>
            obtain ⟨c, hc⟩ := isClass_iff.1 hsub
            dsimp only
            rw [if_pos hsub, hsuper]
            exact Or.inr (Or.inr ⟨r, s, _, rfl, hlow, hv, hsuper, c, parent, hc, hparent, rfl⟩)
          | false =>
            dsimp only
            rw [hsub]
            exact Or.inr (Or.inl ⟨_, { m with stack := m.stack.pop }, rfl, rfl⟩)
        | _ => exact Or.inr (Or.inl ⟨_, { m with stack := m.stack.pop }, rfl, rfl⟩)
      · rw [bind_of_error hpop]
        exact Or.inr (Or.inl ⟨_, m, rfl, rfl⟩)
  · rw [bind_of_error (peek_of_le (Nat.le_of_not_lt hlow))]
    exact Or.inr (Or.inl ⟨_, m, rfl, rfl⟩)

theorem inherit_eq {r s : Ref} (hinheriting : m.Inheriting r s h) :
    ∃ m', inherit m = .ok () m' ∧ m'.heap = h := by
  obtain ⟨c, parent, hc, hparent, hheap⟩ := hinheriting.heap
  have hsuper : m.classOf? (m.stack.getD (m.stack.size - (1 + 1)) .nil) = some parent := by
    rw [hinheriting.superclass]
    exact hparent
  have hpop : pop m = .ok (.ref r) { m with stack := m.stack.pop } := by
    unfold pop
    rw [get_bind, hinheriting.subclass]
    rfl
  unfold inherit
  rw [bind_of_ok (peek_of_lt hinheriting.high), get_bind, hsuper]
  dsimp only
  rw [bind_of_ok hpop]
  unfold modifyClass
  rw [get_bind]
  dsimp only
  rw [if_pos (isClass_iff.2 ⟨c, hc⟩), hheap, ← hinheriting.superclass]
  exact ⟨_, rfl, rfl⟩

/-- Letting a class inherit is safe if the property outlives it. -/
theorem guardsAt_inherit (hm : I m.heap)
    (hinherit : ∀ r s h, m.Inheriting r s h → I h) : GuardsAt low I m inherit := by
  unfold GuardsAt
  rcases inherit_cases m with ⟨what, heq⟩ | ⟨b, q, heq, hheap⟩ | ⟨r, s, m', heq, hinheriting⟩
  · rw [heq]
    exact guards_misuse (α := Unit) what m hm
  · rw [heq, Guarded, hheap]
    exact ⟨hm, trivial⟩
  · rw [heq]
    exact hinherit r s m'.heap hinheriting

/-! Properties. -/

theorem guards_setOnClass (cls name value : Value) : Guards low I (setOnClass cls name value) := by
  refine guards_read fun m => guards_modifyClass cls fun pool c => ?_
  split <;> rfl

/-- Storing a property is safe if it is where the target is a dict. -/
theorem guardsAt_setProperty (hm : I m.heap) {name : Value}
    (hinsert : ∀ r d value, m.stack.back? = some value → m.stack.pop.back? = some (.ref r) →
      m.heap.get? r = some (.dict d) →
      GuardsAt low I { m with stack := m.stack.pop.pop } (insertIntoDict r name value)) :
    GuardsAt low I m (setProperty name) := by
  refine (guards_pop m hm).bindAt fun value q hvalue hq => ?_
  refine (guards_pop q hq).bindAt fun target q' htarget hq' => guardsAt_get ?_
  obtain ⟨hback, rfl⟩ := pop_ok hvalue
  obtain ⟨hbelow, rfl⟩ := pop_ok htarget
  split
  · next r =>
    split
    · exact GuardsAt.bind (lasts_setField hq' _ _ _) fun _ => guards_push value
    · next d hd => exact (hinsert r d value hback hbelow hd).bind fun _ => guards_push value
    · exact (guards_setOnClass _ _ _ _ hq').bind fun _ => guards_push value
    · split
      · exact (guards_setOnClass _ _ _ _ hq').bind fun _ => guards_push value
      · exact (guards_misuse _ _ hq').bind fun _ => guards_push value
  · exact guards_misuse _ _ hq'

theorem guards_testInstance : Guards low I testInstance := by
  refine guards_pop.bind fun cls => guards_pop.bind fun value => guards_get fun m hm => ?_
  split
  · split
    · exact (guardsAt_settle hm Heap.circular_of_isInstanceOf).bind fun _ => guards_push _
    · exact guards_misuse _ m hm
  · exact guards_misuse _ m hm

/-! Invocation. -/

variable [hhost : host.Respects I]

theorem guards_runGetter (receiver getter : Value) :
    Guards low I (runGetter host receiver getter) := by
  refine guards_read fun m => ?_
  split
  · exact guards_runRoutine _ _ _
  · exact guards_breach _

/-- A value is called in the slot below its arguments. -/
theorem guards_callInSlot (value : Value) (count : Nat) :
    Guards low I (do setSlot (← calleeSlot count) value; callValue host value count) :=
  guards_calleeSlot_bind fun base => guardsAbove_setSlot (guardsAbove_callValue value count) base value

theorem guards_invokeProperty (receiver : Value) (e : Entry) (count : Nat) :
    Guards low I (invokeProperty host receiver e count) := by
  unfold invokeProperty
  cases e.kind with
  | value => exact (guards_pure e.value).bind fun value => guards_callInSlot value count
  | getter =>
    exact (guards_runGetter receiver e.value).bind fun value => guards_callInSlot value count

theorem guardsAbove_invokeMethod (receiver : Value) (e : Entry) (count : Nat) :
    GuardsAbove low I count (invokeMethod host receiver e count) := by
  unfold invokeMethod
  cases e.kind with
  | value => exact guardsAbove_callValue _ _
  | getter => exact (guards_invokeProperty _ _ _).above count

theorem guardsAbove_invokeOnInstance (receiver : Value) (cls : Ref) (name : Value) (count : Nat)
    (fromSelf : Bool) :
    GuardsAbove low I count (invokeOnInstance host receiver cls name count fromSelf) := by
  refine guardsAbove_read fun m => ?_
  split
  · exact (guards_invokeProperty _ _ _).above count
  · split
    · exact (guards_misuse _).above count
    · refine guardsAbove_findMethod fun found => ?_
      split
      · exact guardsAbove_invokeMethod _ _ _
      · exact (guards_misuse _).above count

theorem guards_invoke (name : Value) (count : Nat) (fromSelf : Bool) :
    Guards low I (invoke host name count fromSelf) := by
  refine guards_peek_bind fun receiver => Guards.above (guards_calleeSlot_bind fun base => ?_) count
  refine guardsAbove_read fun m => ?_
  split
  · exact guardsAbove_invokeOnInstance _ _ _ _ _
  · split
    · split
      · exact guardsAbove_callValue _ _
      · exact (guards_misuse _).above count
    · split
      · exact guardsAbove_setSlot (guardsAbove_callValue _ _) _ _
      · refine guardsAbove_primitiveMethod fun found => ?_
        split
        · exact guardsAbove_invokeMethod _ _ _
        · exact (guards_misuse _).above count

theorem guardsAbove_invokeSuper (name : Value) (count : Nat) :
    GuardsAbove low I (count + 1) (invokeSuper host name count) := by
  refine guardsAbove_popClass fun superclass => guardsAbove_findMethod fun found => ?_
  split
  · exact guardsAbove_callValue _ _
  · exact (guards_read fun _ => guards_misuse _).above count

theorem guardsAbove_superConstructor (count : Nat) :
    GuardsAbove low I (count + 1) (superConstructor host count) := by
  refine guardsAbove_popClass fun superclass => guardsAbove_read fun m => ?_
  split
  · split
    · refine Guards.above ((guards_calleeSlot count).bind fun base => ?_) count
      exact (guards_runNative _ count).bind fun _ => guards_replaceFrom _ _
    · exact guardsAbove_callValue _ _
  · split
    · exact (guards_misuse _).above count
    · exact (guards_pure ()).above count

theorem guards_showField (receiver : Value) (e : Entry) : Guards low I (showField host receiver e) := by
  unfold showField
  cases e.kind with
  | value => exact guards_setTop _
  | getter =>
    exact guards_calleeSlot_bind fun base =>
      guardsAbove_setSlot (guardsAbove_callValue _ _) base receiver

theorem guards_getOnClass (receiver : Value) (c : Class) (name : Value) (fromSelf : Bool) :
    Guards low I (getOnClass host receiver c name fromSelf) := by
  refine guards_read fun m => ?_
  split
  · split
    · exact guards_misuse _
    · exact guards_showField _ _
  · exact guards_misuse _

/-! Binding. -/

/-- An action that is safe when it starts on this heap. -/
def GuardsOn (low : Prop) (I : Heap → Prop) (h : Heap) (x : Exec α) : Prop :=
  ∀ m, m.heap = h → I h → GuardsAt low I m x

/-- The property outlives it if a method that a class has is bound to a receiver. -/
def BindsSafely (I : Heap → Prop) (h : Heap) : Prop :=
  ∀ cls name e receiver, h.findMethod cls name = .found e →
    I (h.alloc (.bound { receiver, method := e.value })).2

omit hlasting hhost

theorem Guards.on {x : Exec α} (hx : Guards low I x) (h : Heap) : GuardsOn low I h x := by
  rintro m rfl hm
  exact hx m hm

theorem guardsOn_read {f : Machine → Exec α} (hf : ∀ m, GuardsOn low I h (f m)) :
    GuardsOn low I h (get >>= f) := fun m hheap hm => hf m m hheap hm

/-- An action that leaves the heap alone, and one that relies on what is there. -/
theorem Guards.thenOn {x : Exec α} {f : α → Exec β} (hx : Guards low I x)
    (hheap : ∀ {m a m'}, x m = .ok a m' → m'.heap = m.heap) (hf : ∀ a, GuardsOn low I h (f a)) :
    GuardsOn low I h (x >>= f) := by
  rintro m rfl hm
  refine (hx m hm).bindAt fun a m' hok _ => hf a m' (hheap hok) hm

theorem guardsOn_peek {distance : Nat} {f : Value → Exec α} (hf : ∀ v, GuardsOn low I h (f v)) :
    GuardsOn low I h (peek distance >>= f) := by
  refine (guards_peek distance).thenOn (fun {m v m'} hok => ?_) hf
  rw [peek_ok hok]

theorem guardsOn_popClass {f : Ref → Exec α} (hf : ∀ r, GuardsOn low I h (f r)) :
    GuardsOn low I h (popClass >>= f) := by
  refine guards_popClass.thenOn (fun {m r m'} hok => ?_) hf
  rcases popClass_cases m with ⟨r', hok'⟩ | ⟨b, q, herror⟩
  · rw [hok'] at hok
    cases hok
    rfl
  · rw [herror] at hok
    cases hok

/-- What a search found was found on this heap. -/
theorem guardsOn_settle {s : Search α} {f : Option α → Exec β} (hs : s = .endless → h.Circular)
    (hfound : ∀ a, s = .found a → GuardsOn low I h (f (some a))) (habsent : GuardsOn low I h (f none)) :
    GuardsOn low I h (settle s >>= f) := by
  rintro m rfl hm
  cases s with
  | found a => exact hfound a rfl m rfl hm
  | absent => exact habsent m rfl hm
  | endless => exact guardsAt_endless (α := β) hm (hs rfl)

theorem guardsOn_findMethod {cls : Ref} {name : Value} {f : Option Entry → Exec α}
    (hfound : ∀ e, h.findMethod cls name = .found e → GuardsOn low I h (f (some e)))
    (habsent : GuardsOn low I h (f none)) : GuardsOn low I h (findMethod cls name >>= f) := by
  rintro m rfl hm
  exact guardsOn_settle Heap.circular_of_climb hfound habsent m rfl hm

theorem guardsOn_primitiveMethod {receiver name : Value} {f : Option Entry → Exec α}
    (hfound : ∀ cls e, h.findMethod cls name = .found e → GuardsOn low I h (f (some e)))
    (habsent : GuardsOn low I h (f none)) :
    GuardsOn low I h (primitiveMethod receiver name >>= f) := by
  rintro m rfl hm
  unfold GuardsAt primitiveMethod
  rw [bind_assoc, get_bind]
  cases m.heap.primitive? receiver with
  | some p => exact guardsOn_settle Heap.circular_of_climb (hfound _) habsent m rfl hm
  | none => exact habsent m rfl hm

theorem guardsOn_bindTop {receiver method : Value}
    (hbound : I (h.alloc (.bound { receiver, method })).2) :
    GuardsOn low I h (bindTop receiver method) := by
  rintro m rfl -
  have hmade : GuardsAt low I m
      (modifyGet fun m => m.alloc (.bound { receiver, method }) : Exec Value) := hbound
  exact hmade.bind fun v => guards_setTop v

variable [hlasting : LastingOutsideDicts I]

theorem guardsOn_getSuper (hbinds : BindsSafely I h) (name : Value) : GuardsOn low I h (getSuper name) := by
  refine guardsOn_popClass fun superclass => guardsOn_peek fun receiver => ?_
  refine guardsOn_findMethod (fun e he => ?_) ((guards_read fun _ => guards_misuse _).on h)
  exact guardsOn_bindTop (hbinds superclass name e receiver he)

variable [hhost : host.Respects I]

theorem guardsOn_showMethod (hbinds : BindsSafely I h) {cls : Ref} {name : Value} {e : Entry}
    (he : h.findMethod cls name = .found e) (receiver : Value) :
    GuardsOn low I h (showMethod host receiver e) := by
  unfold showMethod
  cases e.kind with
  | value => exact guardsOn_bindTop (hbinds cls name e receiver he)
  | getter => exact (guards_showField receiver e).on h

theorem guardsOn_getOnInstance (hbinds : BindsSafely I h) (receiver : Value) (cls : Ref) (name : Value)
    (fromSelf : Bool) : GuardsOn low I h (getOnInstance host receiver cls name fromSelf) := by
  refine guardsOn_read fun m => ?_
  split
  · exact (guards_misuse _).on h
  · split
    · exact (guards_showField _ _).on h
    · refine guardsOn_findMethod (fun e he => ?_) ((guards_misuse _).on h)
      exact guardsOn_showMethod hbinds he receiver

theorem guardsOn_getOnPrimitive (hbinds : BindsSafely I h) (receiver name : Value) :
    GuardsOn low I h (getOnPrimitive host receiver name) := by
  refine guardsOn_read fun m => ?_
  split
  · refine guardsOn_primitiveMethod (fun cls e he => ?_) ((guards_misuse _).on h)
    exact guardsOn_showMethod hbinds he receiver
  · exact (guards_misuse _).on h

theorem guardsOn_getProperty (hbinds : BindsSafely I h) (name : Value) (fromSelf : Bool) :
    GuardsOn low I h (getProperty host name fromSelf) := by
  refine guardsOn_peek fun receiver => guardsOn_read fun m => ?_
  split
  · exact guardsOn_getOnInstance hbinds _ _ _ _
  · split
    · exact (guards_getOnClass _ _ _ _).on h
    · split
      · exact (guards_showField _ _).on h
      · exact guardsOn_getOnPrimitive hbinds _ _

end ScriptMachine.Machine
