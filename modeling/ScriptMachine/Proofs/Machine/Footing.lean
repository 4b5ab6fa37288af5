import ScriptMachine.Proofs.Machine.Cover.Request

/-!
Working on top of the stack. Most actions take a few values off the stack and put at most one back,
and all the slots below keep their values. Closures and the cells of captured variables are made and
changed by the instructions for them alone; everything else spares them, natives included. A native
may collect, and that keeps the cells of the closures it keeps.

An action that raises an exception has put nothing on the stack before.
-/

namespace ScriptMachine

/-- What captured variables live in: closures and cells. -/
def Object.isScoped : Object → Bool
  | closure _ => true
  | upvalue _ => true
  | _ => false

namespace Heap

/-- The closures and cells of a heap stay as they are. Some may be released, but not what a list
holds, nor the cells of a closure that stays. -/
structure Spared (held : List Ref) (h h' : Heap) : Prop where
  tidy : h'.Tidy
  old : ∀ r o, o.isScoped = true → h'.get? r = some o → h.get? r = some o
  held : ∀ r ∈ held, ∀ u, h.get? r = some (.upvalue u) → h'.get? r = some (.upvalue u)
  captured : ∀ s c, h'.get? s = some (.closure c) → ∀ r ∈ c.upvalues, ∀ u,
    h.get? r = some (.upvalue u) → h'.get? r = some (.upvalue u)

/-- A tidy heap is spared. -/
def Spares (held : List Ref) (h h' : Heap) : Prop := h.Tidy → Spared held h h'

variable {h h' h'' : Heap} {held : List Ref}

/-- Nothing is released. -/
theorem Spared.of_same (htidy : h'.Tidy)
    (hsame : ∀ r o, o.isScoped = true → (h'.get? r = some o ↔ h.get? r = some o)) :
    Spared held h h' where
  tidy := htidy
  old r o ho hget := (hsame r o ho).1 hget
  held r _ u hget := (hsame r (.upvalue u) rfl).2 hget
  captured _ _ _ r _ u hget := (hsame r (.upvalue u) rfl).2 hget

namespace Spares

theorem refl (held : List Ref) (h : Heap) : Spares held h h :=
  fun htidy => .of_same htidy fun _ _ _ => Iff.rfl

theorem trans (hh : Spares held h h') (hh' : Spares held h' h'') : Spares held h h'' := by
  intro htidy
  have hfirst := hh htidy
  have hsecond := hh' hfirst.tidy
  refine ⟨hsecond.tidy, fun r o ho hget => hfirst.old r o ho (hsecond.old r o ho hget),
    fun r hr u hget => hsecond.held r hr u (hfirst.held r hr u hget), ?_⟩
  intro s c hs r hr u hget
  have hbetween := hsecond.old s (.closure c) rfl hs
  exact hsecond.captured s c hs r hr u (hfirst.captured s c hbetween r hr u hget)

end Spares

theorem spares_alloc (h : Heap) {o : Object} (ho : o.isScoped = false) :
    Spares held h (h.alloc o).2 := by
  intro htidy
  refine .of_same ⟨htidy.wellFormed.alloc o, htidy.rest.alloc htidy.wellFormed o⟩ fun r p hp => ?_
  rw [get?_alloc htidy.wellFormed]
  by_cases hr : r = (h.alloc o).1
  · have hvacant : h.get? r ≠ some p := fun hget => ne_alloc_of_get? htidy.wellFormed o hget hr
    have hother : some o ≠ some p := by
      rintro heq
      rw [Option.some.inj heq, hp] at ho
      cases ho
    rw [if_pos hr]
    exact iff_of_false hother hvacant
  · rw [if_neg hr]

theorem spares_intern (h : Heap) (text : String) : Spares held h (h.intern text).2 := by
  intro htidy
  exact .of_same ⟨htidy.wellFormed.intern text, htidy.rest.intern htidy.wellFormed text⟩
    fun r o _ => by rw [get?_intern]

/-- A change that neither begins nor ends with a closure or a cell. -/
theorem spares_update {r : Ref} {f : Object → Object}
    (hf : ∀ o, h.get? r = some o → f o = o ∨ o.isScoped = false ∧ (f o).isScoped = false) :
    Spares held h (h.update r f) := by
  intro htidy
  refine .of_same ⟨htidy.wellFormed.update r f, htidy.rest.update r f⟩ fun s p hp => ?_
  rw [get?_update]
  by_cases hs : r = s
  · subst hs
    rw [if_pos rfl]
    cases hget : h.get? r with
    | none => simp
    | some o =>
      rw [Option.map_some]
      rcases hf o hget with hsame | ⟨hbefore, hafter⟩
      · rw [hsame]
      · refine iff_of_false ?_ ?_
        · rintro heq
          rw [Option.some.inj heq, hp] at hafter
          cases hafter
        · rintro heq
          rw [Option.some.inj heq, hp] at hbefore
          cases hbefore
  · rw [if_neg hs]

end Heap

namespace Machine

/-- The captured variables of a machine are left alone. -/
structure Spares (m m' : Machine) : Prop where
  openUpvalues : m'.openUpvalues = m.openUpvalues
  heap : Heap.Spares m.openUpvalues m.heap m'.heap

end Machine

/-- While calls are under way, natives leave them, the stack and the captured variables as they find
them. They may collect. -/
def Host.Sparing (host : Host) : Prop :=
  ∀ name receiver args (m : Machine), m.frames ≠ [] → m.Spares (host name receiver args m).2 ∧
    (host name receiver args m).2.frames = m.frames ∧
      (host name receiver args m).2.stack = m.stack

namespace Machine

section Stacks

variable {before between after : Array Value} {count less : Nat} {touched : Option Nat}

/-- All but the topmost values of a stack stood in their slots before. One slot may be touched
besides. -/
def Rests (count : Nat) (touched : Option Nat) (before after : Array Value) : Prop :=
  ∀ i, i + count < after.size → touched ≠ some i → after[i]? = before[i]?

namespace Rests

theorem refl (stack : Array Value) : Rests 0 touched stack stack := fun _ _ _ => rfl

theorem trans (h : Rests 0 touched before between) (h' : Rests count touched between after) :
    Rests count touched before after := by
  intro i hi hfree
  have hsame := h' i hi hfree
  have hbetween : i < between.size := by
    by_contra hout
    rw [Array.getElem?_eq_none (Nat.le_of_not_lt hout), Array.getElem?_eq_none_iff] at hsame
    omega
  rw [hsame]
  exact h i hbetween hfree

theorem touch (h : Rests count none before after) : Rests count touched before after :=
  fun i hi _ => h i hi nofun

theorem mono (h : Rests less touched before after) (hle : less ≤ count) :
    Rests count touched before after :=
  fun i hi hfree => h i (by omega) hfree

theorem push (h : Rests count touched before after) (v : Value) :
    Rests (count + 1) touched before (after.push v) := by
  intro i hi hfree
  rw [Array.size_push] at hi
  rw [Array.getElem?_push, if_neg (by omega)]
  exact h i (by omega) hfree

theorem pop (stack : Array Value) : Rests 0 touched stack stack.pop := by
  intro i hi _
  rw [Array.size_pop] at hi
  rw [Array.getElem?_pop, if_pos (by omega)]

theorem shrink (stack : Array Value) (size : Nat) : Rests 0 touched stack (stack.shrink size) := by
  intro i hi _
  rw [Array.size_shrink] at hi
  rw [ArraySlots.getElem?_shrink, if_pos (by omega)]

theorem setSlot (stack : Array Value) (slot : Nat) (v : Value) :
    Rests 0 (some slot) stack (stack.setIfInBounds slot v) := by
  intro i _ hfree
  have hne : slot ≠ i := fun heq => hfree (congrArg some heq)
  rw [Array.getElem?_setIfInBounds, if_neg hne]

end Rests

end Stacks

section Actions

variable {α β : Type} {m m' m'' : Machine} {count : Nat} {touched : Option Nat}

namespace Spares

theorem refl (m : Machine) : m.Spares m := ⟨rfl, .refl _ _⟩

theorem trans (h : m.Spares m') (h' : m'.Spares m'') : m.Spares m'' :=
  ⟨h'.openUpvalues.trans h.openUpvalues, h.heap.trans (h.openUpvalues ▸ h'.heap)⟩

theorem alloc (m : Machine) {o : Object} (ho : o.isScoped = false) : m.Spares (m.alloc o).2 :=
  ⟨rfl, m.heap.spares_alloc ho⟩

theorem intern (m : Machine) (text : String) : m.Spares (m.intern text).2 :=
  ⟨rfl, m.heap.spares_intern text⟩

theorem update {r : Ref} {f : Object → Object}
    (hf : ∀ o, f o = o ∨ o.isScoped = false ∧ (f o).isScoped = false) :
    m.Spares (m.update r f) :=
  ⟨rfl, Heap.spares_update fun o _ => hf o⟩

theorem setField (m : Machine) (target key value : Value) :
    m.Spares (m.setField target key value) := by
  unfold Machine.setField
  split
  · refine update fun o => ?_
    cases o with
    | inst i => exact Or.inr ⟨rfl, rfl⟩
    | _ => exact Or.inl rfl
  · exact .refl m

end Spares

@[simp] theorem frames_setField (m : Machine) (target key value : Value) :
    (m.setField target key value).frames = m.frames := by
  unfold setField
  split <;> rfl

/-! Actions that leave the stack as it is. -/

/-- The result of an action that leaves the stack as it is. -/
def Leaves (m : Machine) : EStateM.Result Signal Machine α → Prop
  | .ok _ m' => m.Spares m' ∧ m'.frames = m.frames ∧ m'.stack = m.stack
  | .error (.raised _) m' => m.Spares m' ∧ m'.stack = m.stack
  | .error _ _ => True

/-- An action that leaves the stack as it is. -/
def Aside (x : Exec α) : Prop := ∀ m, Leaves m (x m)

theorem Leaves.after {e : EStateM.Result Signal Machine α} (hspares : m.Spares m')
    (hframes : m'.frames = m.frames) (hstack : m'.stack = m.stack) (h : Leaves m' e) :
    Leaves m e := by
  cases e with
  | ok a m'' => exact ⟨hspares.trans h.1, h.2.1.trans hframes, h.2.2.trans hstack⟩
  | error s m'' =>
    cases s with
    | raised e => exact ⟨hspares.trans h.1, h.2.trans hstack⟩
    | _ => trivial

theorem Leaves.bind {x : Exec α} {f : α → Exec β} (hx : Leaves m (x m))
    (hf : ∀ a m', x m = .ok a m' → Leaves m' (f a m')) : Leaves m ((x >>= f) m) := by
  cases hres : x m with
  | ok a m' =>
    rw [hres] at hx
    rw [bind_of_ok hres]
    exact (hf a m' hres).after hx.1 hx.2.1 hx.2.2
  | error s m' =>
    rw [hres] at hx
    rw [bind_of_error hres]
    cases s <;> exact hx

theorem Aside.bind {x : Exec α} {f : α → Exec β} (hx : Aside x) (hf : ∀ a, Aside (f a)) :
    Aside (x >>= f) := fun m => (hx m).bind fun a m' _ => hf a m'

theorem aside_read {f : Machine → Exec α} (hf : ∀ m, Aside (f m)) : Aside (get >>= f) :=
  fun m => hf m m

theorem aside_pure (a : α) : Aside (pure a) := fun m => ⟨.refl m, rfl, rfl⟩

theorem aside_throw {s : Signal} : Aside (throw s : Exec α) := by
  intro m
  cases s with
  | raised e => exact ⟨.refl m, rfl⟩
  | _ => trivial

theorem aside_breach (b : Breach) : Aside (breach b : Exec α) := aside_throw

theorem aside_modifyGet {g : Machine → α × Machine} (hspares : ∀ m : Machine, m.Spares (g m).2)
    (hframes : ∀ m, (g m).2.frames = m.frames) (hstack : ∀ m, (g m).2.stack = m.stack) :
    Aside (modifyGet g : Exec α) :=
  fun m => ⟨hspares m, hframes m, hstack m⟩

theorem aside_alloc {g : Machine → Object} (hg : ∀ m, (g m).isScoped = false) :
    Aside (modifyGet fun m => m.alloc (g m) : Exec Value) :=
  aside_modifyGet (fun m => .alloc m (hg m)) (fun _ => rfl) fun _ => rfl

theorem aside_intern (g : Machine → String) :
    Aside (modifyGet fun m => m.intern (g m) : Exec Value) :=
  aside_modifyGet (fun m => .intern m _) (fun _ => rfl) fun _ => rfl

theorem spares_makeException (m : Machine) (kind : ExceptionKind) (message : String) :
    m.Spares (m.makeException kind message).2 := by
  let made := m.alloc (.inst { cls := m.builtins.exception kind })
  have hmade : m.Spares made.2 := .alloc m rfl
  have hnamed : m.Spares (made.2.intern message).2 := hmade.trans (.intern _ _)
  exact hnamed.trans (.setField (made.2.intern message).2 made.1 _ _)

theorem aside_misuse (what : Misuse) : Aside (misuse what : Exec α) :=
  (aside_modifyGet (fun m => spares_makeException m _ _) (fun _ => frames_setField _ _ _ _)
    fun _ => stack_setField _ _ _ _).bind fun _ => aside_throw

theorem aside_settle (s : Search α) : Aside (settle s) := by
  cases s with
  | found a => exact aside_pure _
  | absent => exact aside_pure _
  | endless => exact aside_throw

theorem aside_peek (distance : Nat) : Aside (peek distance) := by
  refine aside_read fun m => ?_
  split
  · exact aside_pure _
  · exact aside_breach _

theorem aside_frame : Aside frame := by
  refine aside_read fun m => ?_
  split
  · exact aside_pure _
  · exact aside_breach _

theorem aside_localSlot (slot : Nat) : Aside (localSlot slot) := by
  refine aside_frame.bind fun f => aside_read fun m => ?_
  split
  · exact aside_pure _
  · exact aside_breach _

/-! Actions that work on top of the stack. -/

/-- The result of an action that works on top of the stack. What it raises, it raises before it
touches anything. -/
def Works (count : Nat) (touched : Option Nat) (m : Machine) :
    EStateM.Result Signal Machine α → Prop
  | .ok _ m' =>
    m.Spares m' ∧ m'.frames.length = m.frames.length ∧ Rests count touched m.stack m'.stack
  | .error (.raised _) m' => m.Spares m' ∧ Rests 0 none m.stack m'.stack
  | .error _ _ => True

def OnTopAt (count : Nat) (m : Machine) (x : Exec α) : Prop := Works count none m (x m)

/-- An action that works on top of the stack and puts at most `count` values there. -/
def OnTop (count : Nat) (x : Exec α) : Prop := ∀ m, OnTopAt count m x

theorem Leaves.works {e : EStateM.Result Signal Machine α} (h : Leaves m e) :
    Works count touched m e := by
  have hrests {stack : Array Value} (hstack : stack = m.stack) (least : Option Nat) :
      Rests 0 least m.stack stack := by
    rw [hstack]
    exact .refl m.stack
  cases e with
  | ok a m' =>
    exact ⟨h.1, congrArg List.length h.2.1, (hrests h.2.2 touched).mono (Nat.zero_le count)⟩
  | error s m' =>
    cases s with
    | raised e => exact ⟨h.1, hrests h.2 none⟩
    | _ => trivial

theorem Aside.onTop {x : Exec α} (h : Aside x) : OnTop count x := fun m => (h m).works

theorem Works.after {e : EStateM.Result Signal Machine α} (hspares : m.Spares m')
    (hlength : m'.frames.length = m.frames.length) (hrests : Rests 0 none m.stack m'.stack)
    (h : Works count touched m' e) : Works count touched m e := by
  cases e with
  | ok a m'' => exact ⟨hspares.trans h.1, h.2.1.trans hlength, hrests.touch.trans h.2.2⟩
  | error s m'' =>
    cases s with
    | raised e => exact ⟨hspares.trans h.1, hrests.trans h.2⟩
    | _ => trivial

theorem Works.bind {x : Exec α} {f : α → Exec β} (hx : OnTopAt 0 m x)
    (hf : ∀ a m', x m = .ok a m' → Works count touched m' (f a m')) :
    Works count touched m ((x >>= f) m) := by
  unfold OnTopAt at hx
  cases hres : x m with
  | ok a m' =>
    rw [hres] at hx
    rw [bind_of_ok hres]
    exact (hf a m' hres).after hx.1 hx.2.1 hx.2.2
  | error s m' =>
    rw [hres] at hx
    rw [bind_of_error hres]
    cases s <;> exact hx

theorem OnTop.bind {x : Exec α} {f : α → Exec β} (hx : OnTop 0 x) (hf : ∀ a, OnTop count (f a)) :
    OnTop count (x >>= f) := fun m => Works.bind (hx m) fun a m' _ => hf a m'

theorem OnTopAt.bind {x : Exec α} {f : α → Exec β} (hx : OnTopAt 0 m x)
    (hf : ∀ a, OnTop count (f a)) : OnTopAt count m (x >>= f) := Works.bind hx fun a m' _ => hf a m'

theorem onTop_get {f : Machine → Exec α} (hf : ∀ m, OnTopAt count m (f m)) :
    OnTop count (get >>= f) := hf

theorem onTop_read {f : Machine → Exec α} (hf : ∀ m, OnTop count (f m)) :
    OnTop count (get >>= f) := fun m => hf m m

theorem onTop_pure (a : α) : OnTop count (pure a) := (aside_pure a).onTop

theorem onTop_throw {s : Signal} : OnTop count (throw s : Exec α) := aside_throw.onTop

theorem onTop_breach (b : Breach) : OnTop count (breach b : Exec α) := (aside_breach b).onTop

theorem onTop_misuse (what : Misuse) : OnTop count (misuse what : Exec α) :=
  (aside_misuse what).onTop

theorem onTop_settle (s : Search α) : OnTop count (settle s) := (aside_settle s).onTop

theorem onTop_peek (distance : Nat) : OnTop 0 (peek distance) := (aside_peek distance).onTop

theorem onTop_frame : OnTop 0 frame := aside_frame.onTop

theorem onTop_localSlot (slot : Nat) : OnTop 0 (localSlot slot) := (aside_localSlot slot).onTop

theorem onTop_alloc {g : Machine → Object} (hg : ∀ m, (g m).isScoped = false) :
    OnTop 0 (modifyGet fun m => m.alloc (g m) : Exec Value) := (aside_alloc hg).onTop

theorem onTop_intern (g : Machine → String) :
    OnTop 0 (modifyGet fun m => m.intern (g m) : Exec Value) := (aside_intern g).onTop

theorem onTopAt_set {q : Machine} (hspares : m.Spares q)
    (hlength : q.frames.length = m.frames.length) (hstack : q.stack = m.stack) :
    OnTopAt 0 m (set q : Exec Unit) :=
  ⟨hspares, hlength, by rw [hstack]; exact .refl m.stack⟩

theorem onTopAt_withStack {stack : Array Value} (h : Rests count none m.stack stack) :
    OnTopAt count m (set { m with stack } : Exec Unit) :=
  ⟨⟨rfl, .refl _ _⟩, rfl, h⟩

/-! Stack. -/

theorem onTop_push (v : Value) : OnTop 1 (push v) :=
  fun m => ⟨⟨rfl, .refl _ _⟩, rfl, (Rests.refl m.stack).push v⟩

/-- What was just made is pushed. -/
theorem OnTop.thenPush {x : Exec Value} (hx : OnTop 0 x) : OnTop 1 (do push (← x)) :=
  hx.bind fun v => onTop_push v

theorem onTop_pop : OnTop 0 pop := by
  refine onTop_get fun m => ?_
  split
  · exact (onTopAt_withStack (.pop m.stack)).bind fun _ => onTop_pure _
  · exact onTop_breach _ m

theorem onTop_drop (count : Nat) : OnTop 0 (drop count) := by
  refine onTop_get fun m => ?_
  split
  · exact onTopAt_withStack (.shrink m.stack _)
  · exact onTop_breach _ m

theorem onTop_takeTop (count : Nat) : OnTop 0 (takeTop count) := by
  refine onTop_get fun m => ?_
  split
  · exact (onTopAt_withStack (.shrink m.stack _)).bind fun _ => onTop_pure _
  · exact onTop_breach _ m

/-! Replacing the top value. -/

/-- The result of an action that replaces the value in a slot, which is on top then. -/
def Replaces (slot : Nat) (m : Machine) : EStateM.Result Signal Machine α → Prop
  | .ok _ m' =>
    m.Spares m' ∧ m'.frames.length = m.frames.length ∧ Rests 0 (some slot) m.stack m'.stack ∧
      m'.stack.size ≤ slot + 1
  | .error (.raised _) m' => m.Spares m' ∧ Rests 0 none m.stack m'.stack
  | .error _ _ => True

theorem Replaces.works {slot : Nat} {e : EStateM.Result Signal Machine α}
    (h : Replaces slot m e) : Works 0 (some slot) m e := by
  cases e with
  | ok a m' => exact ⟨h.1, h.2.1, h.2.2.1⟩
  | error s m' => cases s <;> exact h

theorem Replaces.bind {slot : Nat} {x : Exec α} {f : α → Exec β} (hx : OnTopAt 0 m x)
    (hf : ∀ a m', x m = .ok a m' → Replaces slot m' (f a m')) :
    Replaces slot m ((x >>= f) m) := by
  have hworks : Works 0 (some slot) m ((x >>= f) m) :=
    Works.bind hx fun a m' hresult => (hf a m' hresult).works
  cases hres : x m with
  | ok a m' =>
    have hreplaces := hf a m' hres
    rw [bind_of_ok hres] at hworks ⊢
    revert hworks hreplaces
    cases f a m' with
    | ok b m'' => exact fun hworks hreplaces => ⟨hworks.1, hworks.2.1, hworks.2.2, hreplaces.2.2.2⟩
    | error s q => cases s <;> exact fun hworks _ => hworks
  | error s q =>
    rw [bind_of_error hres] at hworks ⊢
    cases s <;> exact hworks

/-- What is done first leaves the stack as it is. -/
theorem Aside.replaces {slot : Nat} {x : Exec α} {f : α → Exec β} (hx : Aside x)
    (hf : ∀ a m', m'.stack = m.stack → Replaces slot m' (f a m')) :
    Replaces slot m ((x >>= f) m) := by
  refine Replaces.bind (hx.onTop m) fun a m' hresult => hf a m' ?_
  have hleaves := hx m
  rw [hresult] at hleaves
  exact hleaves.2.2

theorem replaces_misuse {slot : Nat} (what : Misuse) (m : Machine) :
    Replaces slot m ((misuse what : Exec α) m) := by
  have hleaves : Leaves m ((misuse what : Exec α) m) := aside_misuse what m
  exact ⟨hleaves.1, by rw [hleaves.2]; exact .refl m.stack⟩

theorem replaces_setTop (v : Value) (m : Machine) :
    Replaces (m.stack.size - 1) m (setTop v m) := by
  unfold setTop
  rw [get_bind]
  by_cases hempty : m.stack.isEmpty = true
  · rw [if_pos hempty]
    trivial
  · rw [if_neg hempty]
    refine ⟨⟨rfl, .refl _ _⟩, rfl, .setSlot m.stack _ v, ?_⟩
    have hsize : (m.stack.setIfInBounds (m.stack.size - 1) v).size = m.stack.size :=
      Array.size_setIfInBounds
    show (m.stack.setIfInBounds (m.stack.size - 1) v).size ≤ m.stack.size - 1 + 1
    omega

/-! Frames. -/

theorem onTop_modifyFrame (g : Frame → Frame) : OnTop 0 (modifyFrame g) := by
  refine onTop_get fun m => ?_
  split
  · rename_i f rest hframes
    refine onTopAt_set ⟨rfl, .refl _ _⟩ ?_ rfl
    rw [hframes]
    rfl
  · exact onTop_breach _ m

theorem onTop_jumpTo (offset : Nat) : OnTop 0 (jumpTo offset) := onTop_modifyFrame _

theorem onTop_jumpBy (distance : Nat) : OnTop 0 (jumpBy distance) := onTop_modifyFrame _

end Actions

end Machine

end ScriptMachine
