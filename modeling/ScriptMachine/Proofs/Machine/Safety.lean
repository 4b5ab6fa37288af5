import ScriptMachine.Machine.Step
import ScriptMachine.Proofs.Machine.Judgement
import ScriptMachine.Proofs.Machine.Lineage

/-!
Safe actions. A property of the heap lasts if storing, interning, changing and collecting objects
keep it, as long as no class gets a superclass and no method is bound. An action guards such a property if it holds on to it
however it ends, leaves the stack only if the stack was too low, and is endless only on a heap that
runs in circles. When a stack is too low is said beside the property. Most actions guard even a
property that depends on the dicts, since they neither make nor change one.
-/

namespace ScriptMachine

/-- A property of the heap that lasts while no class gets a superclass and no method is bound. -/
class Lasting (I : Heap → Prop) : Prop where
  alloc : ∀ {h : Heap} {o : Object}, I h → o.Loose → I (h.alloc o).2
  intern : ∀ {h : Heap} (text : String), I h → I (h.intern text).2
  update : ∀ {h : Heap} {r : Ref} {f : Object → Object}, I h →
    (∀ o, h.get? r = some o → (f o).links = o.links) → I (h.update r f)
  collect : ∀ {h : Heap} (roots : List Ref), I h → I (h.collect roots).2

def Object.isDict : Object → Bool
  | dict _ => true
  | _ => false

/-- A property of the heap that lasts while, besides, no dict is made or changed. -/
class LastingOutsideDicts (I : Heap → Prop) : Prop where
  alloc : ∀ {h : Heap} {o : Object}, I h → o.Loose → o.isDict = false → I (h.alloc o).2
  intern : ∀ {h : Heap} (text : String), I h → I (h.intern text).2
  update : ∀ {h : Heap} {r : Ref} {f : Object → Object}, I h →
    (∀ o, h.get? r = some o → (f o).links = o.links) →
    (∀ o, h.get? r = some o → f o = o ∨ o.isDict = false ∧ (f o).isDict = false) → I (h.update r f)
  collect : ∀ {h : Heap} (roots : List Ref), I h → I (h.collect roots).2

instance (I : Heap → Prop) [hlasting : Lasting I] : LastingOutsideDicts I where
  alloc hh hloose _ := hlasting.alloc hh hloose
  intern text hh := hlasting.intern text hh
  update hh hlinks _ := hlasting.update hh hlinks
  collect roots hh := hlasting.collect roots hh

/-- The natives of a host keep a property of the heap. -/
class Host.Respects (host : Host) (I : Heap → Prop) : Prop where
  native : ∀ name receiver args (m : Machine), I m.heap → I (host name receiver args m).2.heap

/-- What a signal may tell: the machine has left a stack that was too low, and what is endless runs in
a circle. -/
def Signal.Sane (low : Prop) (h : Heap) : Signal → Prop
  | .crash => low
  | .endless => h.Circular
  | _ => True

namespace Machine

variable {α β : Type} {low : Prop} {I : Heap → Prop} {m m' : Machine}

/-- The result of a safe action. -/
def Guarded (low : Prop) (I : Heap → Prop) : EStateM.Result Signal Machine α → Prop
  | .ok _ m => I m.heap
  | .error s m => I m.heap ∧ s.Sane low m.heap

/-- An action that is safe when it starts in this machine. -/
def GuardsAt (low : Prop) (I : Heap → Prop) (m : Machine) (x : Exec α) : Prop := Guarded low I (x m)

def Guards (low : Prop) (I : Heap → Prop) (x : Exec α) : Prop := ∀ m, I m.heap → GuardsAt low I m x

/-! Sequences. -/

theorem GuardsAt.bindAt {x : Exec α} {f : α → Exec β} (hx : GuardsAt low I m x)
    (hf : ∀ a m', x m = .ok a m' → I m'.heap → GuardsAt low I m' (f a)) : GuardsAt low I m (x >>= f) := by
  unfold GuardsAt at hx ⊢
  cases hres : x m with
  | ok a m' =>
    rw [hres] at hx
    rw [bind_of_ok hres]
    exact hf a m' hres hx
  | error s m' =>
    rw [hres] at hx
    rw [bind_of_error hres]
    exact hx

theorem GuardsAt.bind {x : Exec α} {f : α → Exec β} (hx : GuardsAt low I m x)
    (hf : ∀ a, Guards low I (f a)) : GuardsAt low I m (x >>= f) := hx.bindAt fun a m' _ hm' => hf a m' hm'

theorem Guards.bind {x : Exec α} {f : α → Exec β} (hx : Guards low I x) (hf : ∀ a, Guards low I (f a)) :
    Guards low I (x >>= f) := fun m hm => (hx m hm).bind hf

/-- The machine that was read is the one the action goes on from. -/
theorem guards_get {f : Machine → Exec α} (hf : ∀ m, I m.heap → GuardsAt low I m (f m)) :
    Guards low I (get >>= f) := hf

theorem guardsAt_get {f : Machine → Exec α} (hf : GuardsAt low I m (f m)) :
    GuardsAt low I m (get >>= f) := hf

theorem guards_read {f : Machine → Exec α} (hf : ∀ m, Guards low I (f m)) : Guards low I (get >>= f) :=
  fun m hm => hf m m hm

/-! Single actions. -/

theorem guards_pure (a : α) : Guards low I (pure a) := fun _ hm => hm

theorem guards_fault (f : Fault) : Guards low I (fault f : Exec α) := fun _ hm => ⟨hm, trivial⟩

theorem guards_breach (b : Breach) : Guards low I (breach b : Exec α) := guards_fault _

theorem guards_malformed (offset : Nat) (d : Defect) : Guards low I (malformed offset d : Exec α) :=
  guards_fault _

theorem guards_raise (e : Value) : Guards low I (throw (.raised e) : Exec α) :=
  fun _ hm => ⟨hm, trivial⟩

theorem guardsAt_endless (hm : I m.heap) (hcircular : m.heap.Circular) :
    GuardsAt low I m (throw .endless : Exec α) := ⟨hm, hcircular⟩

theorem guards_modify {g : Machine → Machine} (hg : ∀ m, I m.heap → I (g m).heap) :
    Guards low I (modify g : Exec Unit) := hg

theorem guards_modifyGet {g : Machine → α × Machine} (hg : ∀ m, I m.heap → I (g m).2.heap) :
    Guards low I (modifyGet g : Exec α) := hg

/-- The result of a search, which is endless only in a circle. -/
theorem guardsAt_settle (hm : I m.heap) {s : Search α} (hs : s = .endless → m.heap.Circular) :
    GuardsAt low I m (settle s) := by
  cases s with
  | found a => exact hm
  | absent => exact hm
  | endless => exact guardsAt_endless hm (hs rfl)

/-! Stack. -/

theorem guards_push (v : Value) : Guards low I (push v) := guards_modify fun _ hm => hm

theorem guards_setSlot (slot : Nat) (v : Value) : Guards low I (setSlot slot v) :=
  guards_modify fun _ hm => hm

/-- What was just made is pushed. -/
theorem guards_pushNew {g : Machine → Value × Machine} (hg : ∀ m, I m.heap → I (g m).2.heap) :
    Guards low I (do push (← modifyGet g)) := (guards_modifyGet hg).bind fun v => guards_push v

theorem guards_pop : Guards low I pop := by
  refine guards_get fun m hm => ?_
  split
  · exact GuardsAt.bind hm fun _ => guards_pure _
  · exact guards_breach _ m hm

theorem guards_peek (distance : Nat) : Guards low I (peek distance) := by
  refine guards_read fun m => ?_
  split
  · exact guards_pure _
  · exact guards_breach _

/-- Looking at a value of the stack changes nothing. -/
theorem peek_ok {distance : Nat} {v : Value} (hok : peek distance m = .ok v m') : m' = m := by
  unfold peek at hok
  rw [get_bind] at hok
  split at hok
  · cases hok
    rfl
  · cases hok

theorem guards_drop (count : Nat) : Guards low I (drop count) := by
  refine guards_get fun m hm => ?_
  split
  · exact hm
  · exact guards_breach _ m hm

theorem guards_setTop (v : Value) : Guards low I (setTop v) := by
  refine guards_get fun m hm => ?_
  split
  · exact guards_breach _ m hm
  · exact hm

theorem guards_takeTop (count : Nat) : Guards low I (takeTop count) := by
  refine guards_get fun m hm => ?_
  split
  · exact GuardsAt.bind hm fun _ => guards_pure _
  · exact guards_breach _ m hm

theorem guards_calleeSlot (count : Nat) : Guards low I (calleeSlot count) := by
  refine guards_read fun m => ?_
  split
  · exact guards_pure _
  · exact guards_breach _

/-! Frames and operands. -/

theorem guards_frame : Guards low I frame := by
  refine guards_read fun m => ?_
  split
  · exact guards_pure _
  · exact guards_breach _

theorem guards_modifyFrame (g : Frame → Frame) : Guards low I (modifyFrame g) := by
  refine guards_get fun m hm => ?_
  split
  · exact hm
  · exact guards_breach _ m hm

theorem guards_jumpTo (offset : Nat) : Guards low I (jumpTo offset) := guards_modifyFrame _

theorem guards_jumpBy (distance : Nat) : Guards low I (jumpBy distance) := guards_modifyFrame _

theorem guards_localSlot (slot : Nat) : Guards low I (localSlot slot) := by
  refine guards_frame.bind fun f => guards_read fun m => ?_
  split
  · exact guards_pure _
  · exact guards_breach _

theorem guards_fetchByte : Guards low I fetchByte := by
  refine guards_frame.bind fun f => ?_
  split
  · exact (guards_jumpTo _).bind fun _ => guards_pure _
  · exact guards_malformed _ _

theorem guards_fetchShort : Guards low I fetchShort :=
  guards_fetchByte.bind fun _ => guards_fetchByte.bind fun _ => guards_pure _

theorem guards_fetchConstant : Guards low I fetchConstant := by
  refine guards_fetchShort.bind fun index => guards_frame.bind fun f => ?_
  split
  · exact guards_pure _
  · exact guards_malformed _ _

/-! Heap. -/

variable [hlasting : LastingOutsideDicts I]

theorem lasts_setField (hm : I m.heap) (target key value : Value) :
    I (m.setField target key value).heap := by
  unfold setField
  split
  · refine hlasting.update hm (fun o _ => ?_) fun o _ => ?_
    · cases o <;> rfl
    · cases o with
      | inst i => exact Or.inr ⟨rfl, rfl⟩
      | _ => exact Or.inl rfl
  · exact hm

theorem lasts_makeException (hm : I m.heap) (kind : ExceptionKind) (message : String) :
    I (m.makeException kind message).2.heap := by
  let made := m.alloc (.inst { cls := m.builtins.exception kind })
  let named := made.2.intern message
  have hmade : I made.2.heap := hlasting.alloc hm ⟨nofun, rfl⟩ rfl
  have hnamed : I named.2.heap := hlasting.intern message hmade
  exact lasts_setField hnamed made.1 (.ref named.2.builtins.message) named.1

theorem guards_misuse (what : Misuse) : Guards low I (misuse what : Exec α) :=
  (guards_modifyGet fun _ hm => lasts_makeException hm _ _).bind fun e => guards_raise e

/-- A change of the object behind a reference that leaves its links and the dicts alone. -/
theorem guardsAt_setUpdate (hm : I m.heap) {r : Ref} {f : Object → Object}
    (hlinks : ∀ o, m.heap.get? r = some o → (f o).links = o.links)
    (hdict : ∀ o, m.heap.get? r = some o → f o = o ∨ o.isDict = false ∧ (f o).isDict = false) :
    GuardsAt low I m (set (m.update r f) : Exec Unit) := hlasting.update hm hlinks hdict

/-- The cells that are closed stay cells. -/
theorem lasts_closeCells (stack : Array Value) (start : Nat) (cells : List Ref) {h : Heap}
    (hh : I h) : I (closeCells stack start cells h).2 := by
  induction cells generalizing h with
  | nil => exact hh
  | cons r rest ih =>
    unfold closeCells
    cases hslot : h.openSlot? r with
    | none => exact ih hh
    | some slot =>
      dsimp only
      split
      · exact hh
      · have hcell : ∀ o, h.get? r = some o → o = .upvalue (.opened slot) := by
          intro o ho
          unfold Heap.openSlot? at hslot
          rw [ho] at hslot
          split at hslot
          · next hopen =>
            rw [Option.some.inj hopen, Option.some.inj hslot]
          · cases hslot
        refine ih (hlasting.update hh (fun o ho => ?_) fun o ho => ?_)
        · rw [hcell o ho]
          rfl
        · rw [hcell o ho]
          exact Or.inr ⟨rfl, rfl⟩

theorem lasts_closeUpvalues (hm : I m.heap) (start : Nat) : I (m.closeUpvalues start).heap :=
  lasts_closeCells m.stack start m.openUpvalues hm

end Machine

end ScriptMachine
