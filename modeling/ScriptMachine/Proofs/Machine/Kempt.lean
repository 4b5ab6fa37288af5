import ScriptMachine.Machine.Unwinding
import ScriptMachine.Proofs.Machine.BoundMethods
import ScriptMachine.Proofs.Machine.Captures.Lines

/-!
Kempt machines. What is bound binds something else in the end, the open cells are in line, and each
of them is on a slot of a call that is under way. Everything a machine does keeps it so, because a
capture finds its slot in the running call, and a call that ends closes its slots before it goes.
-/

namespace ScriptMachine

namespace Heap

variable {h : Heap} {cells : List Ref} {bases bases' : List Nat} {r : Ref}

/-- Only cells are changed when cells are closed. -/
theorem Bonded.closeCells (hh : h.Bonded) (stack : Array Value) (start : Nat) (cells : List Ref) :
    (closeCells stack start cells h).2.Bonded := by
  induction cells generalizing h with
  | nil => exact hh
  | cons r rest ih =>
    unfold ScriptMachine.closeCells
    split
    · rename_i slot hslot
      split
      · exact hh
      · refine ih (hh.update fun o ho => ?_)
        obtain rfl := Option.some.inj (ho.symm.trans (openSlot?_eq_some.1 hslot))
        rfl
    · exact ih hh

/-- Bound methods are anchored, and open cells are in line above the bottom of some call. -/
structure Kempt (h : Heap) (cells : List Ref) (bases : List Nat) : Prop where
  bonded : h.Bonded
  lined : h.Lined cells
  based : ∀ k ∈ h.openSlots cells, ∃ b ∈ bases, b ≤ k

namespace Kempt

theorem tidy (hk : h.Kempt cells bases) : h.Tidy := ⟨hk.bonded.wellFormed, hk.bonded.rest⟩

/-- The open cells may belong to other calls. -/
theorem rebase (hk : h.Kempt cells bases)
    (hbases : ∀ k ∈ h.openSlots cells, (∃ b ∈ bases, b ≤ k) → ∃ b ∈ bases', b ≤ k) :
    h.Kempt cells bases' :=
  ⟨hk.bonded, hk.lined, fun k hmem => hbases k hmem (hk.based k hmem)⟩

/-- Without a call no cell is open. -/
theorem eq_nil (hk : h.Kempt cells []) : cells = [] := by
  rw [List.eq_nil_iff_forall_not_mem]
  intro r hr
  obtain ⟨slot, hslot⟩ := hk.lined.exists_slot hr
  obtain ⟨b, hb, -⟩ := hk.based slot (mem_openSlots.2 ⟨r, hr, hslot⟩)
  cases hb

/-- A change of the heap under which the open cells keep their slots. -/
theorem of_same {h' : Heap} (hk : h.Kempt cells bases) (hbonded : h'.Bonded)
    (hsame : ∀ r ∈ cells, h'.openSlot? r = h.openSlot? r) : h'.Kempt cells bases where
  bonded := hbonded
  lined := hk.lined.of_same hsame
  based k hmem := by
    obtain ⟨r, hr, hslot⟩ := mem_openSlots.1 hmem
    exact hk.based k (mem_openSlots.2 ⟨r, hr, (hsame r hr).symm.trans hslot⟩)

theorem alloc (hk : h.Kempt cells bases) {o : Object} (ho : ∀ s ∈ o.refs, h.Occupied s) :
    (h.alloc o).2.Kempt cells bases := by
  have hbonded := hk.bonded.alloc fun target htarget s hs =>
    ho s (Object.mem_refs_of_method? htarget hs)
  refine hk.of_same hbonded fun r hr => ?_
  obtain ⟨slot, hslot⟩ := hk.lined.exists_slot hr
  rw [hslot]
  exact openSlot?_alloc_of_open hk.bonded.wellFormed o hslot

theorem intern (hk : h.Kempt cells bases) (text : String) :
    (h.intern text).2.Kempt cells bases := hk.of_same (hk.bonded.intern text) fun _ _ => rfl

/-- A change that touches no bound method and no open cell. -/
theorem update (hk : h.Kempt cells bases) {f : Object → Object}
    (hmethod : ∀ o, h.get? r = some o → (f o).method? = o.method?)
    (hslot : ∀ o, h.get? r = some o → (f o).slot? = o.slot?) :
    (h.update r f).Kempt cells bases :=
  hk.of_same (hk.bonded.update hmethod) fun s _ => openSlot?_update hslot s

theorem collect (hk : h.Kempt cells bases) {roots : List Ref} (hroots : ∀ r ∈ cells, r ∈ roots) :
    (h.collect roots).2.Kempt cells bases := by
  refine hk.of_same (hk.bonded.collect roots) fun r hr => ?_
  obtain ⟨slot, hslot⟩ := hk.lined.exists_slot hr
  rw [hslot, openSlot?_eq_some]
  exact (hk.bonded.rest.collected roots).get?_iff.2
    ⟨openSlot?_eq_some.1 hslot, .root (hroots r hr)⟩

/-- Closing cells leaves the lower ones open. -/
theorem closeCells (hk : h.Kempt cells bases) (stack : Array Value) (start : Nat) :
    (closeCells stack start cells h).2.Kempt (closeCells stack start cells h).1 bases ∧
      ∀ k ∈ (ScriptMachine.closeCells stack start cells h).2.openSlots
        (ScriptMachine.closeCells stack start cells h).1, k ∈ h.openSlots cells ∧ k < start := by
  have hclosed : Closed stack start cells h _ _ := closed_closeCells hk.lined
  have hold {r : Ref} {k : Nat} (hr : r ∈ (ScriptMachine.closeCells stack start cells h).1)
      (hslot : (ScriptMachine.closeCells stack start cells h).2.openSlot? r = some k) :
      r ∈ cells ∧ k < start ∧ h.openSlot? r = some k := by
    obtain ⟨hmem, j, hlt, hj⟩ := (hclosed.mem r).1 hr
    have hget := hclosed.other r fun _ i hi => by rwa [Option.some.inj (hi.symm.trans hj)]
    have hsame : (ScriptMachine.closeCells stack start cells h).2.openSlot? r = some j := by
      rw [openSlot?_eq, hget, ← openSlot?_eq, hj]
    obtain rfl := Option.some.inj (hsame.symm.trans hslot)
    exact ⟨hmem, hlt, hj⟩
  refine ⟨⟨?_, hclosed.lined, fun k hmem => ?_⟩, fun k hmem => ?_⟩
  · exact hk.bonded.closeCells stack start cells
  · obtain ⟨r, hr, hslot⟩ := mem_openSlots.1 hmem
    obtain ⟨hmem, -, hk'⟩ := hold hr hslot
    exact hk.based k (mem_openSlots.2 ⟨r, hmem, hk'⟩)
  · obtain ⟨r, hr, hslot⟩ := mem_openSlots.1 hmem
    obtain ⟨hmem, hlt, hk'⟩ := hold hr hslot
    exact ⟨mem_openSlots.2 ⟨r, hmem, hk'⟩, hlt⟩

end Kempt

end Heap

namespace Machine

variable {m : Machine} {slot : Nat}

/-- Where the calls begin on the stack, the innermost first. -/
def bases (m : Machine) : List Nat := m.frames.map Frame.base

def Kempt (m : Machine) : Prop := m.heap.Kempt m.openUpvalues m.bases

namespace Kempt

/-- Frames that begin at the same places. -/
theorem withFrames (hm : m.Kempt) {frames : List Frame}
    (hbases : frames.map Frame.base = m.frames.map Frame.base) :
    Machine.Kempt { m with frames } := by
  unfold Machine.Kempt bases at hm ⊢
  rwa [hbases]

theorem collect (hm : m.Kempt) : m.collect.2.Kempt :=
  Heap.Kempt.collect hm fun r hr => mem_roots_iff.2 (by tauto)

theorem closeUpvalues (hm : m.Kempt) (start : Nat) :
    (m.closeUpvalues start).Kempt ∧
      ∀ k ∈ (m.closeUpvalues start).openSlots, k ∈ m.openSlots ∧ k < start :=
  Heap.Kempt.closeCells hm m.stack start

/-- A call may go if no cell is open from where it begins. -/
theorem dropFrames (hm : m.Kempt) {frames : List Frame}
    (hgone : ∀ f ∈ m.frames, f ∈ frames ∨ ∀ k ∈ m.openSlots, k < f.base) :
    Machine.Kempt { m with frames } := by
  refine Heap.Kempt.rebase hm fun k hk => ?_
  rintro ⟨_, hb, hle⟩
  obtain ⟨f, hf, rfl⟩ := List.mem_map.1 hb
  rcases hgone f hf with hstays | hbelow
  · exact ⟨f.base, List.mem_map_of_mem hstays, hle⟩
  · have hlt := hbelow k hk
    omega

theorem enter (hm : m.Kempt) (f : Frame) : Machine.Kempt { m with frames := f :: m.frames } :=
  hm.dropFrames fun _ hf => Or.inl (List.mem_cons_of_mem f hf)

/-- Calls go after their variables are closed. -/
theorem leave (hm : m.Kempt) {frames : List Frame} {start : Nat}
    (hgone : ∀ f ∈ m.frames, f ∈ frames ∨ start ≤ f.base) :
    Machine.Kempt { m.closeUpvalues start with frames } := by
  obtain ⟨hclosed, hbelow⟩ := hm.closeUpvalues start
  refine hclosed.dropFrames fun f hf => (hgone f hf).imp_right fun hle k hk => ?_
  exact Nat.lt_of_lt_of_le (hbelow k hk).2 hle

theorem popFrames (hm : m.Kempt) (depth : Nat) : (m.popFrames depth).Kempt := by
  have hclose (gone : List Frame) {q : Machine} (hq : q.Kempt) :
      let closed := gone.foldl (fun q f => q.closeUpvalues f.base) q
      closed.Kempt ∧ closed.frames = q.frames ∧
        ∀ k ∈ closed.openSlots, k ∈ q.openSlots ∧ ∀ f ∈ gone, k < f.base := by
    induction gone generalizing q with
    | nil => exact ⟨hq, rfl, fun k hk => ⟨hk, nofun⟩⟩
    | cons f gone ih =>
      obtain ⟨hfirst, hbelow⟩ := hq.closeUpvalues f.base
      obtain ⟨hclosed, hframes, hrest⟩ := ih hfirst
      refine ⟨hclosed, hframes, fun k hk => ?_⟩
      obtain ⟨hk, hgone⟩ := hrest k hk
      obtain ⟨hk, hlt⟩ := hbelow k hk
      exact ⟨hk, List.forall_mem_cons.2 ⟨hlt, hgone⟩⟩
  obtain ⟨hclosed, hframes, hbelow⟩ := hclose (m.frames.take (m.frames.length - depth)) hm
  refine hclosed.dropFrames fun f hf => ?_
  rw [hframes] at hf ⊢
  rw [← List.take_append_drop (m.frames.length - depth) m.frames, List.mem_append] at hf
  exact hf.symm.imp_right fun hgone k hk => (hbelow k hk).2 f hgone

end Kempt

/-- A running call captures its own slots. -/
theorem Kempt.captureSlot (hm : m.Kempt) (hbase : ∃ b ∈ m.bases, b ≤ slot) :
    (m.captureSlot slot).2.Kempt := by
  rcases captureSlot_cases hm.lined slot with ⟨r, -, -, heq⟩ | ⟨hfree, heq⟩
  · rw [heq]
    exact hm
  · rw [heq]
    let made := m.heap.alloc (.upvalue (.opened slot))
    have hwf := hm.bonded.wellFormed
    have hmade : made.2.openSlot? made.1 = some slot := by
      rw [Heap.openSlot?_alloc hwf, if_pos rfl]
      rfl
    have hsame : ∀ s ∈ m.openUpvalues, made.2.openSlot? s = m.heap.openSlot? s := by
      intro s hs
      obtain ⟨k, hk⟩ := hm.lined.exists_slot hs
      rw [hk]
      exact Heap.openSlot?_alloc_of_open hwf _ hk
    refine ⟨hm.bonded.alloc nofun, hm.lined.insert hsame hmade hfree, fun k hmem => ?_⟩
    obtain ⟨r, hr, hslot⟩ := Heap.mem_openSlots.1 hmem
    rcases mem_of_mem_inserted hr with rfl | hold
    · rwa [← Option.some.inj (hmade.symm.trans hslot)]
    · exact hm.based k (Heap.mem_openSlots.2 ⟨r, hold, (hsame r hold).symm.trans hslot⟩)

end Machine

end ScriptMachine
