import ScriptMachine.Proofs.Machine.Captures.Lines
import ScriptMachine.Proofs.Machine.Footing.Variable

/-!
What capturing variables makes of a machine: new open cells and nothing else.
-/

namespace ScriptMachine

namespace Machine

variable {m q p : Machine} {r s : Ref} {slot : Nat}

/-- New open cells and nothing else. -/
structure Extends (m q : Machine) : Prop where
  tidy : q.heap.Tidy
  lined : q.heap.Lined q.openUpvalues
  stack : q.stack = m.stack
  old : ∀ s o, m.heap.get? s = some o → q.heap.get? s = some o
  fresh : ∀ s o, q.heap.get? s = some o → m.heap.get? s = some o ∨
    m.heap.get? s = none ∧ s ∈ q.openUpvalues
  kept : ∀ s ∈ m.openUpvalues, s ∈ q.openUpvalues
  opened : ∀ s ∈ q.openUpvalues, s ∈ m.openUpvalues ∨ m.heap.get? s = none

namespace Extends

theorem refl (htidy : m.heap.Tidy) (hlined : m.heap.Lined m.openUpvalues) : Extends m m :=
  ⟨htidy, hlined, rfl, fun _ _ hget => hget, fun _ _ hget => Or.inl hget, fun _ hs => hs,
    fun _ hs => Or.inl hs⟩

theorem trans (h : Extends m q) (h' : Extends q p) : Extends m p := by
  have hvacant {s : Ref} (hnone : q.heap.get? s = none) : m.heap.get? s = none := by
    by_contra hsome
    obtain ⟨o, ho⟩ := Option.ne_none_iff_exists'.1 hsome
    rw [h.old s o ho] at hnone
    cases hnone
  refine ⟨h'.tidy, h'.lined, h'.stack.trans h.stack, fun s o hget => h'.old s o (h.old s o hget),
    fun s o hget => ?_, fun s hs => h'.kept s (h.kept s hs), fun s hs => ?_⟩
  · rcases h'.fresh s o hget with hbetween | ⟨hnone, hs⟩
    · rcases h.fresh s o hbetween with hbefore | ⟨hnone, hs⟩
      · exact Or.inl hbefore
      · exact Or.inr ⟨hnone, h'.kept s hs⟩
    · exact Or.inr ⟨hvacant hnone, hs⟩
  · rcases h'.opened s hs with hbetween | hnone
    · exact h.opened s hbetween
    · exact Or.inr (hvacant hnone)

theorem openSlot? (h : Extends m q) (hslot : m.heap.openSlot? s = some slot) :
    q.heap.openSlot? s = some slot :=
  Heap.openSlot?_eq_some.2 (h.old s _ (Heap.openSlot?_eq_some.1 hslot))

end Extends

/-- Capturing a slot yields the open cell of the slot, and there is one from then on. -/
theorem extends_captureSlot (htidy : m.heap.Tidy) (hlined : m.heap.Lined m.openUpvalues)
    (slot : Nat) :
    Extends m (m.captureSlot slot).2 ∧ (m.captureSlot slot).1 ∈ (m.captureSlot slot).2.openUpvalues ∧
      (m.captureSlot slot).2.heap.openSlot? (m.captureSlot slot).1 = some slot := by
  rcases captureSlot_cases hlined slot with ⟨r, hmem, hslot, heq⟩ | ⟨hfree, heq⟩
  · rw [heq]
    exact ⟨.refl htidy hlined, hmem, hslot⟩
  · rw [heq]
    let made := m.heap.alloc (.upvalue (.opened slot))
    have hget (s : Ref) := Heap.get?_alloc htidy.wellFormed (.upvalue (.opened slot)) s
    have hvacant : m.heap.get? made.1 = none := Heap.get?_alloc_vacant htidy.wellFormed _
    have hmade : made.2.openSlot? made.1 = some slot := by
      rw [Heap.openSlot?_eq_some, hget made.1, if_pos rfl]
    have hsame : ∀ s ∈ m.openUpvalues, made.2.openSlot? s = m.heap.openSlot? s := by
      intro s hs
      obtain ⟨k, hk⟩ := hlined.exists_slot hs
      rw [hk]
      exact Heap.openSlot?_alloc_of_open htidy.wellFormed _ hk
    have hinserted := hlined.insert hsame hmade hfree
    refine ⟨⟨⟨htidy.wellFormed.alloc _, htidy.rest.alloc htidy.wellFormed _⟩, hinserted, rfl,
      fun s o ho => htidy.wellFormed.get?_alloc_of_get? _ ho,
      fun s o ho => ?_, fun s hs => ?_, fun s hs => ?_⟩, by simp, hmade⟩
    · by_cases hs : s = made.1
      · subst hs
        exact Or.inr ⟨hvacant, by simp [made]⟩
      · have hbefore := (hget s).symm.trans ho
        rw [if_neg hs] at hbefore
        exact Or.inl hbefore
    · have hsplit := List.takeWhile_append_dropWhile (p := isAbove m.heap slot) (l := m.openUpvalues)
      rw [← hsplit, List.mem_append] at hs
      simp only [List.mem_append, List.mem_cons]
      tauto
    · rcases mem_of_mem_inserted hs with rfl | hold
      · exact Or.inr hvacant
      · exact Or.inl hold

/-! Captures of a closure. -/

theorem Extends.closure (h : Extends m q) {c : Closure} (hget : q.heap.get? s = some (.closure c)) :
    m.heap.get? s = some (.closure c) := by
  rcases h.fresh s _ hget with hbefore | ⟨-, hs⟩
  · exact hbefore
  · obtain ⟨k, hk⟩ := h.lined.exists_slot hs
    rw [Heap.openSlot?_eq_some, hget] at hk
    cases hk

theorem Gathers.extends {f : Frame} {offset : Nat} {cells : List Ref}
    (h : Gathers f offset m cells q) (htidy : m.heap.Tidy)
    (hlined : m.heap.Lined m.openUpvalues) : Extends m q := by
  induction h with
  | done => exact .refl htidy hlined
  | @own offset m q index cells flag _ _ _ _ ih =>
    have hfirst := (extends_captureSlot htidy hlined (f.base + index.toNat)).1
    exact hfirst.trans (ih hfirst.tidy hfirst.lined)
  | shared _ _ _ _ _ ih => exact ih htidy hlined

/-- A capture, read at an offset, and the cell found for it: the open cell of a variable of the
call, or the one that the running closure has. -/
inductive Captured (f : Frame) (offset : Nat) (m q : Machine) (r : Ref) : Prop where
  | own {flag : UInt8} {index : UInt16} (hflag : f.proto.blob.byteAt? offset = some flag)
      (hset : flag ≠ 0) (hindex : f.proto.blob.shortAt? (offset + 1) = some index)
      (hopen : r ∈ q.openUpvalues) (hslot : q.heap.openSlot? r = some (f.base + index.toNat))
  | shared {index : UInt16} {c : Closure} (hflag : f.proto.blob.byteAt? offset = some 0)
      (hindex : f.proto.blob.shortAt? (offset + 1) = some index)
      (hclosure : m.heap.get? f.closure = some (.closure c))
      (hcell : c.upvalues[index.toNat]? = some r)

theorem Captured.before {f : Frame} {offset : Nat} (hextends : Extends m q)
    (h : Captured f offset q p r) : Captured f offset m p r := by
  cases h with
  | own hflag hset hindex hopen hslot => exact .own hflag hset hindex hopen hslot
  | shared hflag hindex hclosure hcell =>
    exact .shared hflag hindex (hextends.closure hclosure) hcell

theorem Gathers.captured {f : Frame} {offset : Nat} {cells : List Ref}
    (h : Gathers f offset m cells q) (htidy : m.heap.Tidy) (hlined : m.heap.Lined m.openUpvalues)
    {i : Nat} (hi : cells[i]? = some r) : Captured f (offset + 3 * i) m q r := by
  induction h generalizing i with
  | done => cases hi
  | @own offset m q index cells flag hflag hset hindex hrest ih =>
    obtain ⟨hfirst, hmem, hslot⟩ := extends_captureSlot htidy hlined (f.base + index.toNat)
    cases i with
    | zero =>
      obtain rfl := Option.some.inj hi
      have hlater := hrest.extends hfirst.tidy hfirst.lined
      exact .own hflag hset hindex (hlater.kept _ hmem) (hlater.openSlot? hslot)
    | succ i =>
      have hcaptured := ih hfirst.tidy hfirst.lined hi
      rw [show offset + 3 * (i + 1) = offset + 3 + 3 * i by omega]
      exact hcaptured.before hfirst
  | @shared offset m q index cells c r hflag hindex hclosure hcell hrest ih =>
    cases i with
    | zero =>
      obtain rfl := Option.some.inj hi
      exact .shared hflag hindex hclosure hcell
    | succ i =>
      rw [show offset + 3 * (i + 1) = offset + 3 + 3 * i by omega]
      exact ih htidy hlined hi

end Machine

end ScriptMachine
