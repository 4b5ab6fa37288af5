import ScriptMachine.Proofs.Machine.Cover.State

/-!
Captured variables. Closing a cell copies a value of the stack into it, and a cell that is captured
again is one of the open cells.
-/

namespace ScriptMachine.Machine.World

variable {w : World} {m : Machine}

theorem isCode_of_openSlot? {h : Heap} {r : Ref} {slot : Nat} (hslot : h.openSlot? r = some slot)
    {o : Object} (ho : h.get? r = some o) : o.isCode = false := by
  unfold Heap.openSlot? at hslot
  rw [ho] at hslot
  cases o with
  | upvalue u => rfl
  | _ => cases hslot

theorem Holds.closeCells {h : Heap} {stack : Array Value} {cells : List Ref} (hh : w.Holds h)
    (hstack : ∀ v ∈ stack, w.Knows v) (hcells : ∀ r ∈ cells, w.Has r) (start : Nat) :
    w.Holds (closeCells stack start cells h).2 ∧
      ∀ r ∈ (closeCells stack start cells h).1, w.Has r := by
  induction cells generalizing h with
  | nil => exact ⟨hh, hcells⟩
  | cons r rest ih =>
    have hrest : ∀ s ∈ rest, w.Has s := fun s hs => hcells s (List.mem_cons_of_mem r hs)
    unfold ScriptMachine.closeCells
    split
    · rename_i slot hslot
      split
      · exact ⟨hh, hcells⟩
      · apply ih
        · apply hh.update
          · intro o _
            exact knows_closed.2 (knows_getD hstack slot)
          · intro o ho
            exact Or.inr ⟨isCode_of_openSlot? hslot ho, rfl⟩
        · exact hrest
    · exact ih hh hrest

theorem Covers.closeUpvalues (hm : w.Covers m) (start : Nat) : w.Covers (m.closeUpvalues start) := by
  obtain ⟨hheap, hcells⟩ := hm.heap.closeCells hm.state.stack hm.state.openUpvalues start
  exact ⟨hheap,
    { hm.state with
      openUpvalues := hcells
      kempt := fun hstart => ((hm.state.kempt hstart).closeUpvalues start).1 }⟩

/-- A slot of a call that is under way is captured. -/
theorem Covers.captureSlot (hm : w.Covers m) {slot : Nat} (hbase : ∃ b ∈ m.bases, b ≤ slot) :
    w.Gives (m.captureSlot slot) := by
  have hkempt : m.Kempt → (m.captureSlot slot).2.Kempt := fun hk => hk.captureSlot hbase
  revert hkempt
  unfold Machine.captureSlot
  dsimp only
  split
  · rename_i r hr
    intro _
    refine ⟨w, le_refl w, hm, knows_reference.2 (hm.state.openUpvalues r ?_)⟩
    have hhead := Option.eq_some_of_filter_eq_some hr
    exact (List.dropWhile_sublist _).subset (List.mem_of_head? hhead)
  · intro hkempt
    obtain ⟨u, hle, hheap, hnew, -⟩ :=
      hm.heap.alloc (o := .upvalue (.opened slot)) knows_opened nofun
    refine ⟨u, hle, ⟨hheap,
      { hm.state.mono hle with
        openUpvalues := ?_, kempt := fun hstart => hkempt ((hm.state.mono hle).kempt hstart) }⟩,
      knows_reference.2 hnew⟩
    intro r hr
    have hold : ∀ s ∈ m.openUpvalues, u.Has s := (hm.state.mono hle).openUpvalues
    rcases List.mem_append.1 hr with habove | hrest
    · exact hold r ((List.takeWhile_sublist _).subset habove)
    · rcases List.mem_cons.1 hrest with rfl | hbelow
      · exact hnew
      · exact hold r ((List.dropWhile_sublist _).subset hbelow)

theorem keeps_frameUpvalue (index : Nat) : w.Keeps (frameUpvalue index) := by
  refine keeps_frame.then fun f _ => ?_
  apply does_get
  intro m hm
  split
  · rename_i c hc
    split
    · rename_i r hr
      have hupvalues := (knows_closure.1 (hm.heap.objects _ _ hc)).2
      exact does_pure (knows_reference.2 (hupvalues r (List.mem_of_getElem? hr)))
    · exact does_breach _
  · exact does_breach _

theorem keeps_readUpvalue (index : Nat) : w.Keeps (readUpvalue index) := by
  refine (keeps_frameUpvalue index).then fun r _ => ?_
  apply does_get
  intro m hm
  split
  · split
    · rename_i v hv
      exact does_pure (hm.state.stack v (Array.mem_of_getElem? hv))
    · exact does_breach _
  · rename_i v hv
    exact does_pure (knows_closed.1 (hm.heap.objects _ _ hv))
  · exact does_breach _

theorem keeps_writeUpvalue (index : Nat) {v : Value} (hv : w.Knows v) :
    w.Keeps (writeUpvalue index v) := by
  refine (keeps_frameUpvalue index).then fun r _ => ?_
  apply does_get
  intro m hm
  split
  · split
    · exact keeps_setSlot _ hv
    · exact does_breach _
  · rename_i old hold
    apply keeps_set
    apply hm.update
    · intro o _
      exact knows_closed.2 hv
    · intro o ho
      rw [hold] at ho
      obtain rfl := Option.some.inj ho
      exact Or.inr ⟨rfl, rfl, rfl, rfl⟩
  · exact does_breach _

/-! Captures of a closure. The calls stay where they are while the captures are read, so all slots
that are captured belong to the running call. -/

/-- After the action the calls begin where they did. -/
def Steady {α : Type} (x : Exec α) : Prop := ∀ m a m', x m = .ok a m' → m'.bases = m.bases

section Steady

variable {α β : Type}

theorem Steady.bind {x : Exec α} {f : α → Exec β} (hx : Steady x) (hf : ∀ a, Steady (f a)) :
    Steady (x >>= f) := by
  intro m b m'' hok
  cases hres : x m with
  | ok a m' =>
    rw [bind_of_ok hres] at hok
    exact (hf a m' b m'' hok).trans (hx m a m' hres)
  | error s m' =>
    rw [bind_of_error hres] at hok
    cases hok

theorem steady_get {f : Machine → Exec α} (hf : ∀ m, Steady (f m)) : Steady (get >>= f) :=
  fun m => hf m m

theorem steady_pure (a : α) : Steady (pure a) := by
  intro m b m' hok
  cases hok
  rfl

theorem steady_throw (s : Signal) : Steady (throw s : Exec α) := by
  intro m a m' hok
  cases hok

theorem steady_frame : Steady frame := by
  refine steady_get fun m => ?_
  split
  · exact steady_pure _
  · exact steady_throw _

theorem base_mem_of_frame {f : Frame} {m' : Machine} (hok : frame m = .ok f m') :
    f.base ∈ m'.bases := by
  unfold frame at hok
  rw [get_bind] at hok
  cases hframes : m.frames with
  | nil =>
    rw [hframes] at hok
    cases hok
  | cons g rest =>
    rw [hframes] at hok
    cases hok
    exact List.mem_map_of_mem (hframes ▸ List.mem_cons_self)

theorem steady_jumpTo (offset : Nat) : Steady (jumpTo offset) := by
  intro m _ m' hok
  unfold jumpTo modifyFrame at hok
  rw [get_bind] at hok
  cases hframes : m.frames with
  | nil =>
    rw [hframes] at hok
    cases hok
  | cons f rest =>
    rw [hframes] at hok
    cases hok
    rw [bases, bases, hframes]
    rfl

theorem steady_fetchByte : Steady fetchByte := by
  refine steady_frame.bind fun f => ?_
  split
  · exact (steady_jumpTo _).bind fun _ => steady_pure _
  · exact steady_throw _

theorem steady_fetchShort : Steady fetchShort :=
  steady_fetchByte.bind fun _ => steady_fetchByte.bind fun _ => steady_pure _

theorem bases_captureSlot (m : Machine) (slot : Nat) : (m.captureSlot slot).2.bases = m.bases := by
  unfold captureSlot
  dsimp only
  split <;> rfl

theorem steady_frameUpvalue (index : Nat) : Steady (frameUpvalue index) := by
  refine steady_frame.bind fun f => steady_get fun m => ?_
  split
  · split
    · exact steady_pure _
    · exact steady_throw _
  · exact steady_throw _

/-- What comes first leaves the calls where they are. -/
theorem Covers.thenSteady [Linked α] [Linked β] (hm : w.Covers m) {x : Exec α} {f : α → Exec β}
    (hx : w.Grows x) (hsteady : Steady x)
    (hf : ∀ w' a m', w ≤ w' → w'.Covers m' → w'.Knows a → m'.bases = m.bases →
      w'.Ends (· ≤ ·) (f a m')) : w.Ends (· ≤ ·) ((x >>= f) m) :=
  (hx m hm).bind (fun huv hvw => huv.trans hvw) (fun _ hu => hu) fun w' a m' hok hle hm' ha =>
    hf w' a m' hle hm' ha (hsteady m a m' hok)

end Steady

theorem ends_captureAll (hm : w.Covers m) {base : Nat} (hbase : base ∈ m.bases) (count : Nat) :
    w.Ends (· ≤ ·) (captureAll base count m) := by
  induction count generalizing w m with
  | zero => exact does_pure (knows_plain rfl) m hm
  | succ count ih =>
    -- The other captures are read after the first one has its cell.
    have hrest {u : World} {cell : Ref} {m' : Machine} (hm' : u.Covers m') (hcell : u.Knows cell)
        (hsame : m'.bases = m.bases) : u.Ends (· ≤ ·) ((do
          let cells ← captureAll base count
          return cell :: cells : Exec (List Ref)) m') := by
      refine (ih hm' (hsame ▸ hbase)).bind (fun huv hvw => huv.trans hvw) (fun _ hu => hu) ?_
      intro v cells m'' _ huv hm'' hcells
      have hboth : v.Knows (cell :: cells) := List.forall_mem_append.2 ⟨hcell.mono huv, hcells⟩
      exact does_pure hboth m'' hm''
    refine hm.thenSteady keeps_fetchByte.lift steady_fetchByte fun w₁ flag m₁ _ hm₁ _ h₁ => ?_
    refine hm₁.thenSteady keeps_fetchShort.lift steady_fetchShort fun w₂ index m₂ _ hm₂ _ h₂ => ?_
    have hsame : m₂.bases = m.bases := h₂.trans h₁
    dsimp only
    split
    · have hslot : ∃ b ∈ m₂.bases, b ≤ base + index.toNat :=
        ⟨base, hsame ▸ hbase, Nat.le_add_right _ _⟩
      obtain ⟨u, hle, hu, hcell⟩ := hm₂.captureSlot hslot
      exact (hrest hu hcell ((bases_captureSlot m₂ _).trans hsame)).after hle
    · refine hm₂.thenSteady (keeps_frameUpvalue _).lift (steady_frameUpvalue _)
        fun w₃ cell m₃ _ hm₃ hcell h₃ => ?_
      exact hrest hm₃ hcell (h₃.trans hsame)

theorem grows_closeOver {function : Ref} (hfunction : w.Has function) :
    w.Grows (closeOver function) := by
  apply does_get
  intro m hm
  split
  · rename_i proto hproto
    have hcode : w.code function (.function proto) := (hm.heap.code _ _).2 ⟨rfl, hproto⟩
    intro m hm
    refine (keeps_frame m hm).bind (fun huv hR => huv ▸ hR) (fun u hu => hu ▸ le_refl w) ?_
    rintro _ f m' hok rfl hm' -
    refine (ends_captureAll hm' (base_mem_of_frame hok) _).bind (fun huv hvw => huv.trans hvw)
      (fun _ hu => hu) ?_
    intro u upvalues m'' _ hle hm'' hcells
    have hclosure : u.Knows (Object.closure { function, proto, upvalues }) :=
      knows_closure.2 ⟨hfunction.mono hle, fun r hr =>
        knows_reference.1 (knows_list.1 hcells r hr)⟩
    have hpaired : ∀ c, Object.closure { function, proto, upvalues } = .closure c →
        u.code c.function (.function c.proto) := by
      intro c hc
      obtain rfl := Object.closure.inj hc
      exact hle.code _ _ hcode
    exact grows_pushNew (fun m hm => hm.alloc hclosure hpaired) m'' hm''
  · exact does_breach _

theorem grows_makeClosure : w.Grows makeClosure := by
  refine keeps_fetchConstant.then fun v hv => ?_
  split
  · exact grows_closeOver (knows_ref.1 hv)
  · exact does_breach _

theorem keeps_closeTop : w.Keeps closeTop := by
  apply does_get
  intro m hm
  split
  · exact does_breach _
  · refine (keeps_set (hm.closeUpvalues _)).then fun _ _ => keeps_pop.then fun _ _ => ?_
    exact does_pure (knows_plain rfl)

end ScriptMachine.Machine.World
