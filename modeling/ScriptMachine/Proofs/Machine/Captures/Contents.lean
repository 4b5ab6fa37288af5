import ScriptMachine.Proofs.Machine.Captures.OpenCells
import ScriptMachine.Proofs.Machine.Collection
import ScriptMachine.Proofs.Machine.Runs

/-!
What captured variables contain. A closed cell has the value of its variable; an open cell stands
for the slot that the variable still has. So a variable keeps its value while its cell is closed
before the slot is given up, and a collection keeps the cells of the closures that it keeps.
-/

namespace ScriptMachine.Machine

variable {m m' q : Machine} {r s : Ref} {v w : Value} {k slot start : Nat}

/-- The value of a captured variable. -/
def content? (m : Machine) (r : Ref) : Option Value :=
  match m.heap.get? r with
  | some (.upvalue (.closed v)) => some v
  | some (.upvalue (.opened slot)) => if r ∈ m.openUpvalues then m.stack[slot]? else none
  | _ => none

theorem content?_closed (hclosed : m.heap.get? r = some (.upvalue (.closed v))) :
    m.content? r = some v := by
  unfold content?
  rw [hclosed]

theorem content?_opened (hopen : r ∈ m.openUpvalues) (hslot : m.heap.openSlot? r = some slot) :
    m.content? r = m.stack[slot]? := by
  unfold content?
  rw [Heap.openSlot?_eq_some.1 hslot]
  exact if_pos hopen

theorem content?_cases (h : m.content? r = some v) :
    m.heap.get? r = some (.upvalue (.closed v)) ∨
      r ∈ m.openUpvalues ∧ ∃ k, m.heap.openSlot? r = some k ∧ m.stack[k]? = some v := by
  unfold content? at h
  split at h
  · rename_i hget
    rw [hget, Option.some.inj h]
    exact Or.inl rfl
  · rename_i k hget
    split at h
    · rename_i hopen
      exact Or.inr ⟨hopen, k, Heap.openSlot?_eq_some.2 hget, h⟩
    · cases h
  · cases h

theorem exists_cell (h : m.content? r = some v) : ∃ u, m.heap.get? r = some (.upvalue u) := by
  rcases content?_cases h with hclosed | ⟨-, k, hk, -⟩
  · exact ⟨_, hclosed⟩
  · exact ⟨_, Heap.openSlot?_eq_some.1 hk⟩

theorem mem_openSlots (hopen : r ∈ m.openUpvalues) (hslot : m.heap.openSlot? r = some slot) :
    slot ∈ m.openSlots := Heap.mem_openSlots.2 ⟨r, hopen, hslot⟩

/-- The open cells are lined up by their slots, and these are on the stack. -/
structure Ordered (m : Machine) : Prop where
  tidy : m.heap.Tidy
  lined : m.heap.Lined m.openUpvalues
  within : ∀ k ∈ m.openSlots, k < m.stack.size

theorem Ordered.isSome_content? (hm : m.Ordered) (hopen : r ∈ m.openUpvalues) :
    (m.content? r).isSome := by
  obtain ⟨k, hk⟩ := hm.lined.exists_slot hopen
  have hlt := hm.within k (mem_openSlots hopen hk)
  rw [content?_opened hopen hk, Array.getElem?_eq_getElem hlt]
  rfl

/-- Captured variables are carried along: nothing is written, and what closures have captured is not
released. -/
structure Carries (m m' : Machine) : Prop where
  ordered : m'.Ordered
  opened : ∀ r ∈ m'.openUpvalues, r ∈ m.openUpvalues
  closures : ∀ s c, m'.heap.get? s = some (.closure c) → m.heap.get? s = some (.closure c)
  cells : ∀ r u, m'.heap.get? r = some (.upvalue u) → ∃ u', m.heap.get? r = some (.upvalue u')
  back : ∀ r v, m'.content? r = some v → m.content? r = some v
  forth : ∀ r u v, m'.heap.get? r = some (.upvalue u) → m.content? r = some v →
    m'.content? r = some v
  held : ∀ s c, m'.heap.get? s = some (.closure c) → ∀ r ∈ c.upvalues, ∀ u,
    m.heap.get? r = some (.upvalue u) → ∃ u', m'.heap.get? r = some (.upvalue u')
  closed : ∀ r w u, m.heap.get? r = some (.upvalue (.closed w)) →
    m'.heap.get? r = some (.upvalue u) → u = .closed w

namespace Carries

theorem refl (hm : m.Ordered) : Carries m m where
  ordered := hm
  opened _ hr := hr
  closures _ _ hget := hget
  cells _ u hget := ⟨u, hget⟩
  back _ _ hv := hv
  forth _ _ _ _ hv := hv
  held _ _ _ _ _ u hget := ⟨u, hget⟩
  closed _ _ _ hclosed hget := by
    rw [hclosed] at hget
    cases hget
    rfl

theorem trans (h : Carries m q) (h' : Carries q m') : Carries m m' where
  ordered := h'.ordered
  opened r hr := h.opened r (h'.opened r hr)
  closures s c hget := h.closures s c (h'.closures s c hget)
  cells r u hget := by
    obtain ⟨u', hbetween⟩ := h'.cells r u hget
    exact h.cells r u' hbetween
  back r v hv := h.back r v (h'.back r v hv)
  forth r u v hget hv := by
    obtain ⟨u', hbetween⟩ := h'.cells r u hget
    exact h'.forth r u v hget (h.forth r u' v hbetween hv)
  held s c hget r hr u hcell := by
    obtain ⟨u', hbetween⟩ := h.held s c (h'.closures s c hget) r hr u hcell
    exact h'.held s c hget r hr u' hbetween
  closed r w u hclosed hget := by
    obtain ⟨u', hbetween⟩ := h'.cells r u hget
    obtain rfl := h.closed r w u' hclosed hbetween
    exact h'.closed r w u hbetween hget

end Carries

/-! What spares captured variables. -/

namespace Spares

theorem openSlot? (hspares : m.Spares m') (hm : m.Ordered) (hopen : r ∈ m.openUpvalues) :
    m'.heap.openSlot? r = m.heap.openSlot? r := by
  obtain ⟨k, hk⟩ := hm.lined.exists_slot hopen
  rw [hk, Heap.openSlot?_eq_some]
  exact (hspares.heap hm.tidy).held r hopen _ (Heap.openSlot?_eq_some.1 hk)

theorem ordered (hspares : m.Spares m') (hm : m.Ordered)
    (hroom : ∀ k ∈ m.openSlots, k < m'.stack.size) : m'.Ordered := by
  refine ⟨(hspares.heap hm.tidy).tidy, ?_, fun k hk => ?_⟩
  · rw [hspares.openUpvalues]
    exact hm.lined.of_same fun r hr => hspares.openSlot? hm hr
  · obtain ⟨r, hr, hk⟩ := Heap.mem_openSlots.1 hk
    rw [hspares.openUpvalues] at hr
    rw [hspares.openSlot? hm hr] at hk
    exact hroom k (mem_openSlots hr hk)

/-- A cell that is still there is closed with the same value, or open for the same slot. -/
theorem cell (hspares : m.Spares m') (hm : m.Ordered) {u : Upvalue}
    (hget : m'.heap.get? r = some (.upvalue u)) : m.heap.get? r = some (.upvalue u) :=
  (hspares.heap hm.tidy).old r (.upvalue u) rfl hget

theorem content? (hspares : m.Spares m') (hm : m.Ordered) {u : Upvalue}
    (hget : m'.heap.get? r = some (.upvalue u))
    (hstay : ∀ k, r ∈ m.openUpvalues → m.heap.openSlot? r = some k →
      m'.stack[k]? = m.stack[k]?) : m'.content? r = m.content? r := by
  have hbefore := hspares.cell hm hget
  unfold Machine.content?
  rw [hget, hbefore, hspares.openUpvalues]
  cases u with
  | closed v => rfl
  | opened k =>
    dsimp only
    by_cases hopen : r ∈ m.openUpvalues
    · rw [if_pos hopen, if_pos hopen]
      exact hstay k hopen (Heap.openSlot?_eq_some.2 hbefore)
    · rw [if_neg hopen, if_neg hopen]

theorem carries (hspares : m.Spares m') (hm : m.Ordered)
    (hstay : ∀ k ∈ m.openSlots, m'.stack[k]? = m.stack[k]?) : Carries m m' := by
  have hspared := hspares.heap hm.tidy
  have hroom : ∀ k ∈ m.openSlots, k < m'.stack.size := by
    intro k hk
    have hlt := hm.within k hk
    have hsame := hstay k hk
    rw [Array.getElem?_eq_getElem hlt, Array.getElem?_eq_some_iff] at hsame
    exact hsame.1
  have hcontent (r : Ref) (u : Upvalue) (hget : m'.heap.get? r = some (.upvalue u)) :
      m'.content? r = m.content? r :=
    hspares.content? hm hget fun k hopen hk => hstay k (mem_openSlots hopen hk)
  refine ⟨hspares.ordered hm hroom, fun r hr => hspares.openUpvalues ▸ hr,
    fun s c hget => hspared.old s (.closure c) rfl hget,
    fun r u hget => ⟨u, hspares.cell hm hget⟩, ?_, ?_, ?_, ?_⟩
  · intro r v hv
    obtain ⟨u, hget⟩ := exists_cell hv
    rw [← hcontent r u hget, hv]
  · intro r u v hget hv
    rw [hcontent r u hget, hv]
  · intro s c hget r hr u hcell
    exact ⟨u, hspared.captured s c hget r hr u hcell⟩
  · intro r w u hclosed hget
    rw [hspares.cell hm hget] at hclosed
    cases hclosed
    rfl

end Spares

/-! Collections. -/

theorem spares_collect (m : Machine) : m.Spares m.collect.2 := by
  refine ⟨rfl, fun htidy => ?_⟩
  have hexact := htidy.rest.collected m.roots
  have hget {r : Ref} {o : Object} : m.collect.2.heap.get? r = some o ↔
      m.heap.get? r = some o ∧ Heap.Reachable m.heap m.roots r := by
    cases r with
    | object i => exact hexact.objects i o
    | text i => exact iff_of_false nofun fun h => nomatch h.1
  have hroot {r : Ref} (hr : r ∈ m.openUpvalues) : Heap.Reachable m.heap m.roots r := by
    refine .root ?_
    unfold roots
    simp only [List.mem_append]
    tauto
  refine ⟨⟨htidy.wellFormed.collect m.roots, hexact.rest⟩, fun r o _ ho => (hget.1 ho).1,
    fun r hr u hu => hget.2 ⟨hu, hroot hr⟩, fun s c hs r hr u hu => ?_⟩
  obtain ⟨hclosure, hreach⟩ := hget.1 hs
  have hrefs : r ∈ (Object.closure c).refs := by
    unfold Object.refs
    exact List.mem_cons_of_mem _ hr
  exact hget.2 ⟨hu, hreach.step hclosure hrefs⟩

theorem carries_collectIfDue (hm : m.Ordered) : Carries m m.collectIfDue := by
  unfold collectIfDue
  split
  · exact (spares_collect m).carries hm fun _ _ => rfl
  · exact .refl hm

/-! Closing. -/

/-- A machine whose captured variables are those of another one, in the same slots. -/
theorem carries_same (hm : m.Ordered) (hheap : m'.heap = m.heap)
    (hopen : m'.openUpvalues = m.openUpvalues)
    (hstay : ∀ k ∈ m.openSlots, m'.stack[k]? = m.stack[k]?) : Carries m m' := by
  have hspares : m.Spares m' := ⟨hopen, by rw [hheap]; exact .refl _ _⟩
  exact hspares.carries hm hstay

theorem carries_push (hm : m.Ordered) (hheap : m'.heap = m.heap)
    (hopen : m'.openUpvalues = m.openUpvalues) (hstack : m'.stack = m.stack.push v) :
    Carries m m' := by
  refine carries_same hm hheap hopen fun k hk => ?_
  have hlt := hm.within k hk
  rw [hstack, Array.getElem?_push, if_neg (by omega)]

theorem closed_closeUpvalues (hm : m.Ordered) (start : Nat) :
    Heap.Closed m.stack start m.openUpvalues m.heap (m.closeUpvalues start).openUpvalues
      (m.closeUpvalues start).heap := Heap.closed_closeCells hm.lined

theorem openSlots_closeUpvalues (hm : m.Ordered) (start : Nat) :
    ∀ k ∈ (m.closeUpvalues start).openSlots, k < start ∧ k ∈ m.openSlots := by
  intro k hk
  have hclosed := closed_closeUpvalues hm start
  obtain ⟨r, hr, hk⟩ := Heap.mem_openSlots.1 hk
  obtain ⟨hopen, j, hlt, hj⟩ := (hclosed.mem r).1 hr
  have hsame := hclosed.other r fun _ i hi => by
    rw [← Option.some.inj (hj.symm.trans hi)]
    exact hlt
  rw [Heap.openSlot?_eq_some, hsame, ← Heap.openSlot?_eq_some] at hk
  rw [Option.some.inj (hk.symm.trans hj)]
  exact ⟨hlt, mem_openSlots hopen hj⟩

/-- Closing leaves a cell as it is, or moves the value of its slot into it. -/
theorem cell_closeUpvalues (hm : m.Ordered) (start : Nat) (r : Ref) :
    ((m.closeUpvalues start).heap.get? r = m.heap.get? r ∧
      (r ∈ (m.closeUpvalues start).openUpvalues ↔ r ∈ m.openUpvalues)) ∨
    r ∈ m.openUpvalues ∧ ∃ k v, m.heap.openSlot? r = some k ∧ m.stack[k]? = some v ∧
      (m.closeUpvalues start).heap.get? r = some (.upvalue (.closed v)) := by
  have hclosed := closed_closeUpvalues hm start
  by_cases hhigh : r ∈ m.openUpvalues ∧ ∃ k, m.heap.openSlot? r = some k ∧ start ≤ k
  · obtain ⟨hopen, k, hk, hle⟩ := hhigh
    have hlt := hm.within k (mem_openSlots hopen hk)
    have hget := hclosed.closed r hopen k hk hle
    rw [Array.getD_eq_getD_getElem?, Array.getElem?_eq_getElem hlt] at hget
    exact Or.inr ⟨hopen, k, m.stack[k], hk, Array.getElem?_eq_getElem hlt, hget⟩
  · have hlow (hopen : r ∈ m.openUpvalues) (k : Nat) (hk : m.heap.openSlot? r = some k) :
        k < start := by
      by_contra hle
      exact hhigh ⟨hopen, k, hk, by omega⟩
    refine Or.inl ⟨hclosed.other r hlow, fun hr => ((hclosed.mem r).1 hr).1, fun hopen => ?_⟩
    obtain ⟨k, hk⟩ := hm.lined.exists_slot hopen
    exact (hclosed.mem r).2 ⟨hopen, k, hlow hopen k hk, hk⟩

theorem content?_closeUpvalues (hm : m.Ordered) (start : Nat) (r : Ref) :
    (m.closeUpvalues start).content? r = m.content? r := by
  rcases cell_closeUpvalues hm start r with ⟨hget, hopen⟩ | ⟨hopen, k, v, hk, hv, hget⟩
  · unfold content?
    simp only [hget, hopen]
    rfl
  · rw [content?_closed hget, content?_opened hopen hk, hv]

/-- Closing changes where the values of variables are, not what they are. -/
theorem carries_closeUpvalues (hm : m.Ordered) (start : Nat) :
    Carries m (m.closeUpvalues start) := by
  have hclosed := closed_closeUpvalues hm start
  have hcases := cell_closeUpvalues hm start
  have hcontent := content?_closeUpvalues hm start
  have hobject {s : Ref} {o : Object} (ho : ∀ u, o ≠ .upvalue u)
      (hget : (m.closeUpvalues start).heap.get? s = some o) : m.heap.get? s = some o := by
    rcases hcases s with ⟨hsame, -⟩ | ⟨-, k, v, -, -, hcell⟩
    · rw [← hsame, hget]
    · rw [hget] at hcell
      exact absurd (Option.some.inj hcell) (ho _)
  refine ⟨⟨hclosed.tidy hm.tidy, hclosed.lined, fun k hk => ?_⟩,
    fun r hr => ((hclosed.mem r).1 hr).1, fun s c hget => hobject nofun hget, ?_,
    fun r v hv => (hcontent r).symm.trans hv, fun r u v _ hv => (hcontent r).trans hv, ?_, ?_⟩
  · exact hm.within k (openSlots_closeUpvalues hm start k hk).2
  · intro r u hget
    rcases hcases r with ⟨hsame, -⟩ | ⟨-, k, v, hk, -, -⟩
    · exact ⟨u, by rw [← hsame, hget]⟩
    · exact ⟨_, Heap.openSlot?_eq_some.1 hk⟩
  · intro s c _ r _ u hcell
    rcases hcases r with ⟨hsame, -⟩ | ⟨-, k, v, -, -, hget⟩
    · exact ⟨u, by rw [hsame, hcell]⟩
    · exact ⟨_, hget⟩
  · intro r w u hbefore hget
    rcases hcases r with ⟨hsame, -⟩ | ⟨-, k, v, hk, -, -⟩
    · rw [hsame, hbefore] at hget
      cases hget
      rfl
    · rw [Heap.openSlot?_eq_some, hbefore] at hk
      cases hk

/-- What goes off the stack is closed before. -/
theorem carries_shed (hm : m.Ordered) (size : Nat) :
    Carries m ((m.closeUpvalues size).truncate size) := by
  have hclosed := carries_closeUpvalues hm size
  refine hclosed.trans (carries_same hclosed.ordered rfl rfl fun k hk => ?_)
  have hlt := (openSlots_closeUpvalues hm size k hk).1
  show ((m.closeUpvalues size).stack.shrink size)[k]? = _
  rw [ArraySlots.getElem?_shrink, if_pos hlt]

theorem carries_reset (hm : m.Ordered) : Carries m m.reset := by
  have hclosed := carries_closeUpvalues hm 0
  refine hclosed.trans (carries_same hclosed.ordered rfl rfl fun k hk => ?_)
  have hlt := (openSlots_closeUpvalues hm 0 k hk).1
  omega

theorem Recedes.carries (h : Recedes m m') (hm : m.Ordered) : Carries m m' := by
  induction h with
  | refl => exact .refl hm
  | steer _ _ _ _ ih => exact ih.trans (carries_same ih.ordered rfl rfl fun _ _ => rfl)
  | close _ start ih => exact ih.trans (carries_closeUpvalues ih.ordered start)
  | shed _ size ih => exact ih.trans (carries_shed ih.ordered size)

theorem Lands.carries (h : Lands m m') (hm : m.Ordered) : Carries m m' := by
  rcases h.stack with hsame | ⟨v, hpush⟩
  · exact carries_same hm h.heap h.openUpvalues fun k _ => by rw [hsame]
  · exact carries_push hm h.heap h.openUpvalues hpush

theorem Yields.carries {f : Frame} (h : Yields f v m m') (hm : m.Ordered) : Carries m m' := by
  have hshed := carries_shed hm f.base
  exact hshed.trans (carries_push hshed.ordered h.heap h.openUpvalues h.stack)

/-- An operand goes off the stack that is no captured variable. -/
theorem carries_pop (hm : m.Ordered) (hfree : ∀ k ∈ m.openSlots, k < m.stack.size - 1)
    (hheap : m'.heap = m.heap) (hopen : m'.openUpvalues = m.openUpvalues)
    (hstack : m'.stack = m.stack.pop) : Carries m m' := by
  refine carries_same hm hheap hopen fun k hk => ?_
  rw [hstack, Array.getElem?_pop, if_pos (hfree k hk)]

end ScriptMachine.Machine
