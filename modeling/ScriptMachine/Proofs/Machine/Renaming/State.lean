import ScriptMachine.Proofs.ArraySlots
import ScriptMachine.Proofs.Machine.Renaming.Machines

/-!
The smallest actions on machines that are the same but for a renaming. Stacks that are alike have
the same height and alike values in each slot, so what is taken off, read or put into a slot is
alike; calls under way are in the same place of the same stream.
-/

namespace ScriptMachine

/-! Arrays that are alike. -/

section Arrays

variable {α β : Type}

theorem forall₂_iff_getElem? {R : α → β → Prop} {as : List α} {bs : List β} :
    List.Forall₂ R as bs ↔ ∀ i : Nat, Option.Rel R as[i]? bs[i]? := by
  constructor
  · intro h
    induction h with
    | nil => exact fun i => .none
    | cons hab _ ih =>
      intro i
      cases i with
      | zero => exact .some hab
      | succ i => exact ih i
  · intro h
    induction as generalizing bs with
    | nil =>
      cases bs with
      | nil => exact .nil
      | cons b bs => cases h 0
    | cons a as ih =>
      cases bs with
      | nil => cases h 0
      | cons b bs =>
        cases h 0 with
        | some hab => exact .cons hab (ih fun i => h (i + 1))

variable [Renamed α] {ρ : Renaming} {as bs as' bs' : Array α} {a b : α}

theorem alike_iff_getElem? : ρ.Alike as bs ↔ ∀ i : Nat, ρ.Alike as[i]? bs[i]? := by
  refine forall₂_iff_getElem?.trans (forall_congr' fun i => ?_)
  rw [Array.getElem?_toList, Array.getElem?_toList]
  rfl

theorem alike_getElem? (h : ρ.Alike as bs) (i : Nat) : ρ.Alike as[i]? bs[i]? :=
  alike_iff_getElem?.1 h i

theorem alike_append (h : ρ.Alike as bs) (h' : ρ.Alike as' bs') :
    ρ.Alike (as ++ as') (bs ++ bs') := by
  show List.Forall₂ _ _ _
  rw [Array.toList_append, Array.toList_append]
  exact List.rel_append h h'

theorem alike_push (h : ρ.Alike as bs) (hab : ρ.Alike a b) : ρ.Alike (as.push a) (bs.push b) := by
  rw [← Array.append_singleton, ← Array.append_singleton]
  exact alike_append h (.cons hab .nil)

theorem alike_replicate (n : Nat) (hab : ρ.Alike a b) :
    ρ.Alike (Array.replicate n a) (Array.replicate n b) := by
  rw [alike_iff_getElem?]
  intro i
  rw [Array.getElem?_replicate, Array.getElem?_replicate]
  split
  · exact .some hab
  · exact .none

theorem alike_shrink (h : ρ.Alike as bs) (n : Nat) : ρ.Alike (as.shrink n) (bs.shrink n) := by
  rw [alike_iff_getElem?]
  intro i
  rw [ArraySlots.getElem?_shrink, ArraySlots.getElem?_shrink]
  split
  · exact alike_getElem? h i
  · exact .none

theorem alike_pop (h : ρ.Alike as bs) : ρ.Alike as.pop bs.pop := by
  rw [alike_iff_getElem?]
  intro i
  rw [Array.getElem?_pop, Array.getElem?_pop, alike_size h]
  split
  · exact alike_getElem? h i
  · exact .none

theorem alike_extract (h : ρ.Alike as bs) (i j : Nat) :
    ρ.Alike (as.extract i j) (bs.extract i j) := by
  rw [alike_iff_getElem?]
  intro k
  rw [Array.getElem?_extract, Array.getElem?_extract, alike_size h]
  split
  · exact alike_getElem? h _
  · exact .none

theorem alike_setIfInBounds (h : ρ.Alike as bs) (i : Nat) (hab : ρ.Alike a b) :
    ρ.Alike (as.setIfInBounds i a) (bs.setIfInBounds i b) := by
  rw [alike_iff_getElem?]
  intro k
  rw [Array.getElem?_setIfInBounds, Array.getElem?_setIfInBounds, alike_size h]
  split
  · split
    · exact .some hab
    · exact .none
  · exact alike_getElem? h k

theorem alike_getD (h : ρ.Alike as bs) (i : Nat) (hab : ρ.Alike a b) :
    ρ.Alike (as.getD i a) (bs.getD i b) := by
  have hread := alike_getElem? h i
  rw [Array.getD_eq_getD_getElem?, Array.getD_eq_getD_getElem?]
  generalize as[i]? = a? at hread
  generalize bs[i]? = b? at hread
  cases hread with
  | none => exact hab
  | some hab' => exact hab'

theorem alike_back? (h : ρ.Alike as bs) : ρ.Alike as.back? bs.back? := by
  rw [Array.back?, Array.back?, alike_size h]
  exact alike_getElem? h _

end Arrays

open Machine

namespace Renaming

variable {α : Type} [Renamed α] {R : Renaming → Renaming → Prop} [Course R] {ρ : Renaming}
  {m n : Machine} {v w : Value}

/-! Signals. -/

theorem keeps_fault (f : Fault) : ρ.Keeps (fault f : Exec α) (fault f) := keeps_throw (.fault f)

theorem keeps_breach (b : Breach) : ρ.Keeps (breach b : Exec α) (breach b) := keeps_fault _

theorem keeps_malformed (offset : Nat) (d : Defect) :
    ρ.Keeps (malformed offset d : Exec α) (malformed offset d) := keeps_fault _

theorem keeps_endless : ρ.Keeps (throw .endless : Exec α) (throw .endless) := keeps_throw .endless

theorem keeps_crash : ρ.Keeps (throw .crash : Exec α) (throw .crash) := keeps_throw .crash

theorem keeps_raised (hvw : ρ.Alike v w) :
    ρ.Keeps (throw (.raised v) : Exec α) (throw (.raised w)) := keeps_throw (.raised hvw)

theorem grows_misuse (what : Misuse) : ρ.Grows (misuse what : Exec α) (misuse what) := by
  have hmake : ρ.Grows (modifyGet fun m : Machine => m.makeException what.kind what.message :
      Exec Value) (modifyGet fun m => m.makeException what.kind what.message) :=
    does_modifyGet fun m n hm => hm.makeException _ _
  exact hmake.then fun σ e e' _ he => (keeps_raised he).lift

theorem keeps_settle {s t : Search α} (hst : ρ.Alike s t) : ρ.Keeps (settle s) (settle t) := by
  cases hst with
  | found hab => exact keeps_pure (.some hab)
  | absent => exact keeps_pure .none
  | endless => exact keeps_endless

theorem Mirrors.limits (hm : ρ.Mirrors m n) : m.settings.maxFrames = n.settings.maxFrames ∧
    m.settings.maxTryDepth = n.settings.maxTryDepth ∧
    m.settings.strictGlobals = n.settings.strictGlobals := by
  have hframes := congrArg Settings.maxFrames hm.state.settings
  have hregions := congrArg Settings.maxTryDepth hm.state.settings
  have hstrict := congrArg Settings.strictGlobals hm.state.settings
  exact ⟨hframes, hregions, hstrict⟩

/-! Texts. -/

theorem Mirrors.typeName (hm : ρ.Mirrors m n) (hvw : ρ.Alike v w) : m.typeName v = n.typeName w :=
  hm.heap.typeName hvw

theorem Mirrors.render (hm : ρ.Mirrors m n) (hvw : ρ.Alike v w) : m.render v = n.render w :=
  hm.heap.render hvw

theorem Mirrors.nameText (hm : ρ.Mirrors m n) (hvw : ρ.Alike v w) : m.nameText v = n.nameText w :=
  congrArg (fun text? : Option String => text?.getD "?") (hm.heap.text? hvw)

/-! Stack. -/

theorem Mirrors.size (hm : ρ.Mirrors m n) : m.stack.size = n.stack.size :=
  alike_size hm.state.stack

theorem Mirrors.withStack (hm : ρ.Mirrors m n) {stack stack' : Array Value}
    (hstack : ρ.Alike stack stack') : ρ.Mirrors { m with stack } { n with stack := stack' } :=
  ⟨hm.heap, { hm.state with stack := hstack }⟩

theorem Mirrors.truncate (hm : ρ.Mirrors m n) (size : Nat) :
    ρ.Mirrors (m.truncate size) (n.truncate size) :=
  hm.withStack (alike_shrink hm.state.stack size)

theorem Mirrors.setSlot (hm : ρ.Mirrors m n) (slot : Nat) (hvw : ρ.Alike v w) :
    ρ.Mirrors { m with stack := m.stack.setIfInBounds slot v }
      { n with stack := n.stack.setIfInBounds slot w } :=
  hm.withStack (alike_setIfInBounds hm.state.stack slot hvw)

theorem keeps_push (hvw : ρ.Alike v w) : ρ.Keeps (push v) (push w) :=
  keeps_modify fun _ _ hm => hm.withStack (alike_push hm.state.stack hvw)

/-- What was just made is pushed. -/
theorem grows_pushNew {f g : Machine → Value × Machine}
    (hf : ∀ m n, ρ.Mirrors m n → ρ.Makes (f m) (g n)) :
    ρ.Grows (do push (← modifyGet f)) (do push (← modifyGet g)) :=
  Grows.then (does_modifyGet hf) fun _ _ _ _ hvw => (keeps_push hvw).lift

theorem keeps_pop : ρ.Keeps pop pop := by
  refine does_get fun m n hm => ?_
  have hback := alike_back? hm.state.stack
  generalize m.stack.back? = v? at hback
  generalize n.stack.back? = w? at hback
  cases hback with
  | none => exact keeps_breach _
  | some hvw =>
    have hpop := hm.withStack (alike_pop hm.state.stack)
    intro m' n' _
    exact .ok rfl hpop hvw

theorem keeps_peek (distance : Nat) : ρ.Keeps (peek distance) (peek distance) := by
  refine does_get fun m n hm => ?_
  rw [hm.size]
  split
  · exact keeps_pure (alike_getD hm.state.stack _ .nil)
  · exact keeps_breach _

theorem keeps_drop (count : Nat) : ρ.Keeps (drop count) (drop count) := by
  refine does_get fun m n hm => ?_
  rw [hm.size]
  split
  · exact keeps_set (hm.truncate _)
  · exact keeps_breach _

theorem keeps_setSlot (slot : Nat) (hvw : ρ.Alike v w) :
    ρ.Keeps (setSlot slot v) (setSlot slot w) :=
  keeps_modify fun _ _ hm => hm.setSlot slot hvw

theorem keeps_setTop (hvw : ρ.Alike v w) : ρ.Keeps (setTop v) (setTop w) := by
  refine does_get fun m n hm => ?_
  rw [alike_isEmpty hm.state.stack, hm.size]
  split
  · exact keeps_breach _
  · exact keeps_set (hm.setSlot _ hvw)

theorem keeps_takeTop (count : Nat) : ρ.Keeps (takeTop count) (takeTop count) := by
  refine does_get fun m n hm => ?_
  rw [hm.size]
  split
  · have hitems := alike_extract hm.state.stack (n.stack.size - count) n.stack.size
    have hleft := hm.truncate (n.stack.size - count)
    intro m' n' _
    exact .ok rfl hleft hitems
  · exact keeps_breach _

theorem keeps_calleeSlot (count : Nat) : ρ.Keeps (calleeSlot count) (calleeSlot count) := by
  refine does_get fun m n hm => ?_
  rw [hm.size]
  split
  · exact keeps_pure rfl
  · exact keeps_breach _

/-! Frames. -/

theorem keeps_frame : ρ.Keeps frame frame := by
  refine does_get fun m n hm => ?_
  have hframes := hm.state.frames
  generalize m.frames = fs at hframes
  generalize n.frames = gs at hframes
  cases hframes with
  | nil => exact keeps_breach _
  | cons hfg _ => exact keeps_pure hfg

theorem keeps_modifyFrame {c d : Frame → Frame}
    (hcd : ∀ f g, ρ.Alike f g → ρ.Alike (c f) (d g)) :
    ρ.Keeps (modifyFrame c) (modifyFrame d) := by
  refine does_get fun m n hm => ?_
  have hframes := hm.state.frames
  generalize m.frames = fs at hframes
  generalize n.frames = gs at hframes
  cases hframes with
  | nil => exact keeps_breach _
  | cons hfg hrest =>
    exact keeps_set ⟨hm.heap, { hm.state with frames := .cons (hcd _ _ hfg) hrest }⟩

theorem keeps_jumpTo (offset : Nat) : ρ.Keeps (jumpTo offset) (jumpTo offset) :=
  keeps_modifyFrame fun _ _ h => ⟨h.closure, h.proto, rfl, h.base, h.left, h.right⟩

theorem keeps_jumpBy (distance : Nat) : ρ.Keeps (jumpBy distance) (jumpBy distance) :=
  keeps_modifyFrame fun _ _ h =>
    ⟨h.closure, h.proto, congrArg (· + distance) h.ip, h.base, h.left, h.right⟩

theorem keeps_localSlot (slot : Nat) : ρ.Keeps (localSlot slot) (localSlot slot) := by
  refine keeps_frame.then fun f g hfg => does_get fun m n hm => ?_
  rw [hfg.base, hm.size]
  split
  · exact keeps_pure rfl
  · exact keeps_breach _

/-! Operands. -/

theorem keeps_fetchByte : ρ.Keeps fetchByte fetchByte := by
  refine keeps_frame.then fun f g hfg => ?_
  have hbyte : f.proto.blob.byteAt? f.ip = g.proto.blob.byteAt? g.ip := by
    rw [hfg.ip]
    obtain ⟨_, hproto, _⟩ := hfg
    generalize f.proto = p at hproto
    generalize g.proto = q at hproto
    cases hproto
    rfl
  rw [hbyte, hfg.ip]
  cases g.proto.blob.byteAt? g.ip with
  | none => exact keeps_malformed _ _
  | some b => exact (keeps_jumpTo _).then fun _ _ _ => keeps_pure rfl

theorem keeps_fetchShort : ρ.Keeps fetchShort fetchShort := by
  refine keeps_fetchByte.then fun high high' hhigh => ?_
  refine keeps_fetchByte.then fun low low' hlow => ?_
  obtain rfl : high = high' := hhigh
  obtain rfl : low = low' := hlow
  exact keeps_pure rfl

theorem keeps_constant (index : UInt16) : ρ.Keeps (constant index) (constant index) := by
  refine keeps_frame.then fun f g hfg => ?_
  have hconstant : ρ.Alike (f.proto.blob.constant? index) (g.proto.blob.constant? index) := by
    obtain ⟨_, hproto, _⟩ := hfg
    generalize f.proto = p at hproto
    generalize g.proto = q at hproto
    cases hproto with
    | intro h => exact alike_getElem? h _
  rw [hfg.ip]
  generalize f.proto.blob.constant? index = v? at hconstant
  generalize g.proto.blob.constant? index = w? at hconstant
  cases hconstant with
  | none => exact keeps_malformed _ _
  | some hvw => exact keeps_pure hvw

theorem keeps_fetchConstant : ρ.Keeps fetchConstant fetchConstant := by
  refine keeps_fetchShort.then fun index index' hindex => ?_
  obtain rfl : index = index' := hindex
  exact keeps_constant index

end Renaming

end ScriptMachine
