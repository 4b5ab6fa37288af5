import ScriptMachine.Proofs.Machine.Footing.Data
import ScriptMachine.Proofs.Machine.Quiet.Call

/-!
Calls. A call touches the slot of its callee and nothing below it. Where it begins, the callee and
the arguments become the slots of its frame; where it is done with at once, they are replaced by at
most one value.
-/

namespace ScriptMachine.Machine

open World

variable {α : Type} {host : Host} {m m' : Machine} {slot count : Nat}

/-- A call with `count` arguments begins; its callee stands in a slot. The arguments stay where they
are, as far as the function has parameters for them. -/
structure Begins (slot count : Nat) (m m' : Machine) : Prop where
  frames : ∃ g : Frame, m'.frames = g :: m.frames ∧ g.base = slot ∧
    slot + 1 + g.proto.arity ≤ m'.stack.size ∧
      ∀ i < slot + 1 + count, i < slot + 1 + g.proto.arity → i ≠ slot →
        m'.stack[i]? = m.stack[i]?
  room : slot + 1 + count ≤ m.stack.size
  spares : m.Spares m'

/-- The result of a call with `count` arguments whose callee stands in a slot. -/
def Invokes (slot count : Nat) (m : Machine) : EStateM.Result Signal Machine α → Prop
  | .ok _ m' =>
    (m.Spares m' ∧ m'.frames.length = m.frames.length ∧ Rests 0 (some slot) m.stack m'.stack) ∨
      Begins slot count m m'
  | .error (.raised _) m' => m.Spares m' ∧ Rests 0 (some slot) m.stack m'.stack
  | .error _ _ => True

/-- An action that calls the value below `count` arguments while other calls are under way. -/
def CallsTop (count : Nat) (x : Exec α) : Prop :=
  ∀ m : Machine, m.frames ≠ [] → Invokes (m.stack.size - (count + 1)) count m (x m)

theorem Works.invokes {e : EStateM.Result Signal Machine α} (h : Works 0 (some slot) m e) :
    Invokes slot count m e := by
  cases e with
  | ok a m' => exact Or.inl h
  | error s m' =>
    cases s with
    | raised e => exact ⟨h.1, h.2.touch⟩
    | _ => trivial

theorem Aside.callsTop {x : Exec α} (h : Aside x) : CallsTop count x :=
  fun m _ => (h m).works.invokes

theorem Invokes.after {e : EStateM.Result Signal Machine α} (hspares : m.Spares m')
    (hframes : m'.frames = m.frames) (hrests : Rests 0 (some slot) m.stack m'.stack)
    (hsize : m'.stack.size ≤ m.stack.size) (h : Invokes slot count m' e) :
    Invokes slot count m e := by
  cases e with
  | ok a q =>
    rcases h with ⟨hs, hf, hr⟩ | ⟨⟨g, hg, hbase, harity, hstay⟩, hroom, hs⟩
    · exact Or.inl ⟨hspares.trans hs, hf.trans (congrArg List.length hframes), hrests.trans hr⟩
    · refine Or.inr ⟨⟨g, by rw [hg, hframes], hbase, harity, ?_⟩, by omega, hspares.trans hs⟩
      intro i hi hparameter hne
      rw [hstay i hi hparameter hne]
      exact hrests i (by omega) fun heq => hne (Option.some.inj heq).symm
  | error s q =>
    cases s with
    | raised e => exact ⟨hspares.trans h.1, hrests.trans h.2⟩
    | _ => trivial

/-- What is done on the way to a call. -/
theorem CallsTop.after {β : Type} {x : Exec α} {f : α → Exec β}
    (hx : ∀ m : Machine, m.frames ≠ [] → Leaves m (x m)) (hf : ∀ a, CallsTop count (f a)) :
    CallsTop count (x >>= f) := by
  intro m hunder
  have hleaves := hx m hunder
  cases hres : x m with
  | ok a m' =>
    rw [hres] at hleaves
    obtain ⟨hspares, hframes, hstack⟩ := hleaves
    have hcalls := hf a m' (by rwa [hframes])
    rw [hstack] at hcalls
    rw [bind_of_ok hres]
    refine hcalls.after hspares hframes ?_ (Nat.le_of_eq (congrArg Array.size hstack))
    rw [hstack]
    exact .refl m.stack
  | error s q =>
    rw [hres] at hleaves
    rw [bind_of_error hres]
    have hfails : Leaves (α := β) m (.error s q) := by cases s <;> exact hleaves
    exact hfails.works.invokes

theorem Aside.thenCall {β : Type} {x : Exec α} {f : α → Exec β} (hx : Aside x)
    (hf : ∀ a, CallsTop count (f a)) : CallsTop count (x >>= f) := .after (fun m _ => hx m) hf

/-- The callee is replaced where it stands before it is called. -/
theorem CallsTop.placed {x : Exec α} (hx : CallsTop count x) (v : Value) (hunder : m.frames ≠ []) :
    Invokes (m.stack.size - (count + 1)) count m
      ((do setSlot (m.stack.size - (count + 1)) v; x : Exec α) m) := by
  let slot := m.stack.size - (count + 1)
  let placed : Machine := { m with stack := m.stack.setIfInBounds slot v }
  have hsize : placed.stack.size = m.stack.size := Array.size_setIfInBounds
  have hcalls : Invokes slot count placed (x placed) := by
    have hcalls := hx placed hunder
    rwa [hsize] at hcalls
  have hplaced : m.Spares placed := ⟨rfl, .refl _ _⟩
  exact hcalls.after hplaced rfl (.setSlot m.stack slot v) (Nat.le_of_eq hsize)

theorem callsTop_placing {v : Value} {x : Exec α} (hx : CallsTop count x) :
    CallsTop count (do setSlot (← calleeSlot count) v; x) := by
  intro m hunder
  by_cases hcount : count < m.stack.size
  · rw [bind_of_ok (calleeSlot_of_lt hcount)]
    exact hx.placed v hunder
  · rw [bind_of_error (calleeSlot_of_le (Nat.le_of_not_lt hcount))]
    trivial

theorem callsTop_read {f : Machine → Exec α} (hf : ∀ m, CallsTop count (f m)) :
    CallsTop count (get >>= f) := fun m hunder => hf m m hunder

/-! Closures. -/

/-- The arguments stay where they are, as far as there are parameters for them. -/
theorem bindArguments_stays {proto : Prototype}
    (hbound : bindArguments proto count m = .ok () m') :
    m.Spares m' ∧ m'.frames = m.frames ∧
      ∀ i < m.stack.size, i + count < m.stack.size + proto.arity →
        m'.stack[i]? = m.stack[i]? := by
  unfold bindArguments at hbound
  dsimp only at hbound
  by_cases hvariadic : proto.variadic = true
  · simp only [if_pos hvariadic, get_bind] at hbound
    by_cases hshort : m.stack.size < count - proto.arity
    · rw [if_pos hshort] at hbound
      cases hbound
    · rw [if_neg hshort] at hbound
      rw [bind_of_ok (takeTop_eq (Nat.le_of_not_lt hshort))] at hbound
      cases hbound
      refine ⟨⟨rfl, m.heap.spares_alloc rfl⟩, rfl, fun i hi hparameter => ?_⟩
      have hshrunk : (m.stack.shrink (m.stack.size - (count - proto.arity))).size =
          m.stack.size - (count - proto.arity) := by simp
      show ((m.stack.shrink (m.stack.size - (count - proto.arity)) ++
        Array.replicate (proto.arity - count) Value.nil).push _)[i]? = _
      rw [Array.getElem?_push, if_neg (by rw [Array.size_append, hshrunk]; omega),
        Array.getElem?_append_left (by omega), ArraySlots.getElem?_shrink, if_pos (by omega)]
  · simp only [if_neg hvariadic] at hbound
    cases hbound
    exact ⟨⟨rfl, .refl _ _⟩, rfl, fun i hi _ => Array.getElem?_append_left hi⟩

theorem invokes_callClosure (r : Ref) (proto : Prototype)
    (hslot : slot = m.stack.size - (count + 1)) :
    Invokes slot count m (callClosure r proto count m) := by
  have hcalling := calling_callClosure r proto count m
  generalize callClosure r proto count m = result at hcalling
  cases hcalling with
  | refused what => exact (aside_misuse what m).works.invokes
  | full => trivial
  | crashes => trivial
  | crashesBound => trivial
  | @begins q _ hbound _ hsize hcallee =>
    obtain ⟨hspares, hframes, hstays⟩ := bindArguments_stays hbound
    have harity : proto.arity ≤ proto.paramSlots := Nat.le_add_right _ _
    refine Or.inr ⟨⟨_, congrArg _ hframes, ?_, ?_, ?_⟩, by omega, ⟨hspares.1, hspares.2⟩⟩
    · show q.stack.size - proto.paramSlots - 1 = slot
      omega
    · show slot + 1 + proto.arity ≤ q.stack.size
      omega
    · intro i hi hparameter _
      exact hstays i (by omega) (show i + count < m.stack.size + proto.arity by
        have : i < slot + 1 + proto.arity := hparameter
        omega)

/-! Natives. -/

theorem leaves_runRoutine (hsparing : host.Sparing) (hunder : m.frames ≠ []) (routine : Routine)
    (receiver : Value) (args : Array Value) : Leaves m (runRoutine host routine receiver args m) := by
  have hnative : m.Spares (native host routine receiver args m).2 ∧
      (native host routine receiver args m).2.frames = m.frames ∧
        (native host routine receiver args m).2.stack = m.stack := by
    cases routine with
    | host name => exact hsparing name receiver args m hunder
    | exceptionInit =>
      show m.Spares (exceptionInit receiver args m).2 ∧ (exceptionInit receiver args m).2.frames = _ ∧
        (exceptionInit receiver args m).2.stack = _
      rcases exceptionInit_cases receiver args m with ⟨v, -, heq⟩ | ⟨text, heq⟩
      · rw [heq]
        exact ⟨.setField m _ _ _, frames_setField _ _ _ _, stack_setField _ _ _ _⟩
      · rw [heq]
        have hnamed : m.Spares (m.intern text).2 := .intern m text
        exact ⟨hnamed.trans (.setField (m.intern text).2 _ _ _), frames_setField _ _ _ _,
          stack_setField _ _ _ _⟩
  rw [runRoutine_eq]
  revert hnative
  rcases native host routine receiver args m with ⟨_ | v, m'⟩
  · rintro ⟨hspares, hframes, hstack⟩
    dsimp only
    split
    · exact ⟨⟨hspares.1, hspares.2⟩, hstack⟩
    · trivial
  · exact id

theorem leaves_runNative (hsparing : host.Sparing) (hunder : m.frames ≠ []) (n : NativeFunction)
    (count : Nat) : Leaves m (runNative host n count m) := by
  have hcases := @runNative_cases host n count m
  rcases hcases with ⟨what, heq⟩ | heq | ⟨-, heq⟩
  · rw [heq]
    exact aside_misuse what m
  · rw [heq]
    trivial
  · rw [heq]
    exact leaves_runRoutine hsparing hunder _ _ _

/-- The callee and its arguments are replaced by one value. -/
theorem works_replaceFrom (hslot : slot ≤ m.stack.size) (v : Value) :
    Works 0 (some slot) m (replaceFrom slot v m) := by
  refine ⟨⟨rfl, .refl _ _⟩, rfl, fun i hi hfree => ?_⟩
  have hne : slot ≠ i := fun heq => hfree (congrArg some heq)
  change i + 0 < ((m.stack.shrink slot).push v).size at hi
  rw [Array.size_push, Array.size_shrink] at hi
  show ((m.stack.shrink slot).push v)[i]? = m.stack[i]?
  rw [Array.getElem?_push, if_neg (by rw [Array.size_shrink]; omega), ArraySlots.getElem?_shrink,
    if_pos (by omega)]

/-- A native runs on the arguments, and one value replaces them and the callee. -/
theorem invokes_replacing (hsparing : host.Sparing) (hunder : m.frames ≠ []) (n : NativeFunction)
    (hslot : slot ≤ m.stack.size) (result : Value → Value) :
    Invokes slot count m ((do
      let v ← runNative host n count
      replaceFrom slot (result v) : Exec Unit) m) := by
  have hleaves := leaves_runNative hsparing hunder n count
  refine Works.invokes (Works.bind hleaves.works fun v q hres => ?_)
  rw [hres] at hleaves
  rw [← hleaves.2.2] at hslot
  exact works_replaceFrom hslot (result v)

theorem callsTop_callNative (hsparing : host.Sparing) (n : NativeFunction) (count : Nat) :
    CallsTop count (callNative host n count) := by
  intro m hunder
  unfold callNative
  by_cases hcount : count < m.stack.size
  · rw [bind_of_ok (calleeSlot_of_lt hcount)]
    exact invokes_replacing hsparing hunder n (Nat.sub_le _ _) id
  · rw [bind_of_error (calleeSlot_of_le (Nat.le_of_not_lt hcount))]
    trivial

/-! Classes and values. -/

theorem callsTop_callClosure (r : Ref) (proto : Prototype) (count : Nat) :
    CallsTop count (callClosure r proto count) := fun _ _ => invokes_callClosure r proto rfl

theorem callsTop_instantiate (hsparing : host.Sparing) (r : Ref) (c : Class) (count : Nat) :
    CallsTop count (instantiate host r c count) := by
  intro m hunder
  unfold instantiate
  by_cases hcount : count < m.stack.size
  · rw [bind_of_ok (calleeSlot_of_lt hcount), get_bind]
    cases m.heap.initialFields? r with
    | none => trivial
    | some fields =>
      let slot := m.stack.size - (count + 1)
      let made := m.alloc (.inst { cls := r, fields })
      let placed : Machine := { made.2 with stack := m.stack.setIfInBounds slot made.1 }
      have hsize : placed.stack.size = m.stack.size := Array.size_setIfInBounds
      have hslot : placed.stack.size - (count + 1) = slot := by rw [hsize]
      have hmade : m.Spares made.2 := .alloc m rfl
      have hplaced : m.Spares placed := ⟨hmade.1, hmade.2⟩
      have hcalls : placed.frames ≠ [] := hunder
      have hle : slot ≤ placed.stack.size := by
        rw [← hslot]
        exact Nat.sub_le _ _
      refine Invokes.after hplaced rfl (.setSlot m.stack slot made.1) (Nat.le_of_eq hsize) ?_
      show Invokes slot count placed (construct host c slot made.1 count placed)
      unfold construct
      rw [get_bind]
      cases c.constructor?.bind placed.heap.callee? with
      | none =>
        dsimp only
        split
        · exact (aside_misuse _ placed).works.invokes
        · exact (aside_pure () placed).works.invokes
      | some callee =>
        cases callee with
        | closure r proto => exact invokes_callClosure r proto hslot.symm
        | native n =>
          exact invokes_replacing hsparing hcalls n hle fun _ => made.1
        | bound b => trivial
        | cls r c => trivial
  · rw [bind_of_error (calleeSlot_of_le (Nat.le_of_not_lt hcount))]
    trivial

theorem callsTop_callValue (hsparing : host.Sparing) (v : Value) (count : Nat) :
    CallsTop count (callValue host v count) := by
  refine callsTop_read fun m => ?_
  cases m.heap.unbind m.heap.linkLimit none v with
  | none => exact fun _ _ => trivial
  | some found =>
    obtain ⟨receiver?, target⟩ := found
    have hcall : CallsTop count (callTarget host m target count) := by
      unfold callTarget
      cases m.heap.callee? target with
      | none => exact (aside_misuse _).callsTop
      | some callee =>
        cases callee with
        | closure r proto => exact callsTop_callClosure r proto count
        | native n => exact callsTop_callNative hsparing n count
        | bound b => exact (aside_misuse _).callsTop
        | cls r c => exact callsTop_instantiate hsparing r c count
    cases receiver? with
    | none => exact hcall
    | some receiver => exact callsTop_placing hcall

end ScriptMachine.Machine
