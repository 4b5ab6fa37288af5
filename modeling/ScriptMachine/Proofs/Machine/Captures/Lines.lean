import ScriptMachine.Machine.Variable
import ScriptMachine.Proofs.Heap.Growth

/-!
Open cells in line. The open cells of a machine are lined up by their slots, the highest first, and
no slot has two. So the cell of a slot is found from the front, a new one is put between those above
and those below, and closing from a slot on takes cells off the front.
-/

namespace ScriptMachine

/-- The slot of an open cell. -/
def Object.slot? : Object → Option Nat
  | upvalue (.opened slot) => some slot
  | _ => none

namespace Heap

variable {h h' : Heap} {r s : Ref} {refs rest : List Ref} {slot start : Nat} {stack : Array Value}

theorem openSlot?_eq_some : h.openSlot? r = some slot ↔ h.get? r = some (.upvalue (.opened slot)) := by
  unfold openSlot?
  split
  · rename_i k hget
    rw [hget]
    simp
  · rename_i hother
    exact iff_of_false nofun (hother slot)

theorem openSlot?_eq (h : Heap) (r : Ref) : h.openSlot? r = (h.get? r).bind Object.slot? := by
  unfold openSlot?
  split
  · rename_i slot hget
    rw [hget]
    rfl
  · rename_i hother
    cases hget : h.get? r with
    | none => rfl
    | some o =>
      cases o with
      | upvalue u =>
        cases u with
        | opened slot => exact absurd hget (hother slot)
        | closed v => rfl
      | _ => rfl

theorem openSlot?_of_closed {v : Value} (hclosed : h.get? r = some (.upvalue (.closed v))) :
    h.openSlot? r = none := by
  rw [openSlot?_eq, hclosed]
  rfl

theorem openSlot?_alloc (hwf : h.WellFormed) (o : Object) (s : Ref) :
    (h.alloc o).2.openSlot? s = if s = (h.alloc o).1 then o.slot? else h.openSlot? s := by
  rw [openSlot?_eq, openSlot?_eq, get?_alloc hwf]
  split <;> rfl

/-- What is stored takes the slot of no open cell. -/
theorem openSlot?_alloc_of_open (hwf : h.WellFormed) (o : Object) {slot : Nat}
    (hr : h.openSlot? r = some slot) : (h.alloc o).2.openSlot? r = some slot :=
  openSlot?_eq_some.2 (hwf.get?_alloc_of_get? o (openSlot?_eq_some.1 hr))

theorem openSlot?_update {f : Object → Object}
    (hf : ∀ o, h.get? r = some o → (f o).slot? = o.slot?) (s : Ref) :
    (h.update r f).openSlot? s = h.openSlot? s := by
  rw [openSlot?_eq, openSlot?_eq, get?_update]
  split
  · next heq =>
    subst heq
    cases ho : h.get? r with
    | none => rfl
    | some o => exact hf o ho
  · rfl

/-- The slots of the open cells in a list. -/
def openSlots (h : Heap) (refs : List Ref) : List Nat := refs.filterMap h.openSlot?

theorem mem_openSlots : slot ∈ h.openSlots refs ↔ ∃ r ∈ refs, h.openSlot? r = some slot :=
  List.mem_filterMap

/-- All cells of a list are open, and each has its slot below those before it. -/
inductive Lined (h : Heap) : List Ref → Prop where
  | nil : Lined h []
  | cons {r : Ref} {slot : Nat} {rest : List Ref} (hslot : h.openSlot? r = some slot)
      (hbelow : ∀ k ∈ h.openSlots rest, k < slot) (hrest : Lined h rest) : Lined h (r :: rest)

namespace Lined

theorem exists_slot (h' : h.Lined refs) (hr : r ∈ refs) : ∃ slot, h.openSlot? r = some slot := by
  induction h' with
  | nil => cases hr
  | cons hslot _ _ ih =>
    rcases List.mem_cons.1 hr with rfl | hmem
    · exact ⟨_, hslot⟩
    · exact ih hmem

/-- No slot has two cells. -/
theorem eq_of_slot (h' : h.Lined refs) (hr : r ∈ refs) (hs : s ∈ refs)
    (hrslot : h.openSlot? r = some slot) (hsslot : h.openSlot? s = some slot) : r = s := by
  induction h' with
  | nil => cases hr
  | @cons q k rest hk hbelow _ ih =>
    have hlow {p : Ref} (hp : p ∈ rest) (hslot : h.openSlot? p = some slot) : slot < k :=
      hbelow slot (mem_openSlots.2 ⟨p, hp, hslot⟩)
    rcases List.mem_cons.1 hr with rfl | hrmem
    · rcases List.mem_cons.1 hs with rfl | hsmem
      · rfl
      · have hlt := hlow hsmem hsslot
        rw [Option.some.inj (hk.symm.trans hrslot)] at hlt
        exact absurd hlt (Nat.lt_irrefl _)
    · rcases List.mem_cons.1 hs with rfl | hsmem
      · have hlt := hlow hrmem hrslot
        rw [Option.some.inj (hk.symm.trans hsslot)] at hlt
        exact absurd hlt (Nat.lt_irrefl _)
      · exact ih hrmem hsmem

theorem of_same (hlined : h.Lined refs) (hsame : ∀ r ∈ refs, h'.openSlot? r = h.openSlot? r) :
    h'.Lined refs := by
  induction hlined with
  | nil => exact .nil
  | @cons r slot rest hslot hbelow _ ih =>
    have hrest : ∀ s ∈ rest, h'.openSlot? s = h.openSlot? s :=
      fun s hs => hsame s (List.mem_cons_of_mem r hs)
    refine .cons ((hsame r List.mem_cons_self).trans hslot) (fun k hk => ?_) (ih hrest)
    obtain ⟨s, hs, hk⟩ := mem_openSlots.1 hk
    exact hbelow k (mem_openSlots.2 ⟨s, hs, (hrest s hs).symm.trans hk⟩)

/-- What stands before the place of a slot has higher slots. -/
theorem head?_dropWhile (hlined : h.Lined refs) (hs : s ∈ refs)
    (hslot : h.openSlot? s = some slot) :
    (refs.dropWhile (Machine.isAbove h slot)).head? = some s := by
  induction hlined with
  | nil => cases hs
  | @cons r k rest hk hbelow _ ih =>
    rw [List.dropWhile_cons]
    rcases List.mem_cons.1 hs with rfl | hmem
    · have hlevel : Machine.isAbove h slot s = false := by simp [Machine.isAbove, hslot]
      rw [hlevel]
      rfl
    · have hlt : slot < k := hbelow slot (mem_openSlots.2 ⟨s, hmem, hslot⟩)
      have habove : Machine.isAbove h slot r = true := by simp [Machine.isAbove, hk, hlt]
      rw [if_pos habove]
      exact ih hmem

/-- A new cell is put between those above and those below. -/
theorem insert (hlined : h.Lined refs) (hsame : ∀ s ∈ refs, h'.openSlot? s = h.openSlot? s)
    (hr : h'.openSlot? r = some slot) (hfree : ∀ s ∈ refs, h.openSlot? s ≠ some slot) :
    h'.Lined (refs.takeWhile (Machine.isAbove h slot) ++
      r :: refs.dropWhile (Machine.isAbove h slot)) := by
  induction hlined with
  | nil => exact .cons hr nofun .nil
  | @cons s k rest hk hbelow hrest ih =>
    have hlow {p : Ref} {j : Nat} (hp : p ∈ rest) (hj : h'.openSlot? p = some j) : j < k := by
      rw [hsame p (List.mem_cons_of_mem s hp)] at hj
      exact hbelow j (mem_openSlots.2 ⟨p, hp, hj⟩)
    have hk' : h'.openSlot? s = some k := (hsame s List.mem_cons_self).trans hk
    have hsame' : ∀ p ∈ rest, h'.openSlot? p = h.openSlot? p :=
      fun p hp => hsame p (List.mem_cons_of_mem s hp)
    by_cases hlt : slot < k
    · have habove : Machine.isAbove h slot s = true := by simp [Machine.isAbove, hk, hlt]
      rw [List.takeWhile_cons_of_pos habove, List.dropWhile_cons_of_pos habove, List.cons_append]
      refine .cons hk' (fun j hj => ?_)
        (ih hsame' fun p hp => hfree p (List.mem_cons_of_mem s hp))
      obtain ⟨p, hp, hpslot⟩ := mem_openSlots.1 hj
      rw [List.mem_append, List.mem_cons] at hp
      rcases hp with hp | rfl | hp
      · exact hlow ((List.takeWhile_sublist _).subset hp) hpslot
      · rwa [← Option.some.inj (hr.symm.trans hpslot)]
      · exact hlow ((List.dropWhile_sublist _).subset hp) hpslot
    · have hlevel : ¬ Machine.isAbove h slot s = true := by simp [Machine.isAbove, hk, hlt]
      have hne : k ≠ slot := fun heq => hfree s List.mem_cons_self (heq ▸ hk)
      rw [List.takeWhile_cons_of_neg hlevel, List.dropWhile_cons_of_neg hlevel]
      refine .cons hr (fun j hj => ?_) ((Lined.cons hk hbelow hrest).of_same hsame)
      obtain ⟨p, hp, hpslot⟩ := mem_openSlots.1 hj
      rcases List.mem_cons.1 hp with rfl | hp
      · rw [← Option.some.inj (hk'.symm.trans hpslot)]
        omega
      · have hlt := hlow hp hpslot
        omega

end Lined

/-! Closing cells. -/

/-- The cells of a list from a slot on are closed with the values of their slots, and the others
stay open. -/
structure Closed (stack : Array Value) (start : Nat) (refs : List Ref) (h : Heap) (kept : List Ref)
    (h' : Heap) : Prop where
  lined : h'.Lined kept
  kept : kept = refs.filter fun r => (h.openSlot? r).any fun k => decide (k < start)
  closed : ∀ r ∈ refs, ∀ k, h.openSlot? r = some k → start ≤ k →
    h'.get? r = some (.upvalue (.closed (stack.getD k .nil)))
  other : ∀ r, (r ∈ refs → ∀ k, h.openSlot? r = some k → k < start) → h'.get? r = h.get? r
  tidy : h.Tidy → h'.Tidy

theorem Closed.mem {kept : List Ref} (hclosed : Closed stack start refs h kept h') (r : Ref) :
    r ∈ kept ↔ r ∈ refs ∧ ∃ k < start, h.openSlot? r = some k := by
  rw [hclosed.kept, List.mem_filter]
  cases h.openSlot? r <;> simp

/-- Where all slots are below the first one, no cell is closed. -/
theorem Closed.of_below (hlined : h.Lined refs) (hbelow : ∀ k ∈ h.openSlots refs, k < start) :
    Closed stack start refs h refs h := by
  refine ⟨hlined, ?_, fun s hs k hk hle => ?_, fun _ _ => rfl, id⟩
  · rw [eq_comm, List.filter_eq_self]
    intro s hs
    obtain ⟨k, hk⟩ := hlined.exists_slot hs
    simpa [hk] using hbelow k (mem_openSlots.2 ⟨s, hs, hk⟩)
  · have hlt := hbelow k (mem_openSlots.2 ⟨s, hs, hk⟩)
    omega

/-- The first cell is closed, and then those behind it. -/
theorem Closed.cons {kept : List Ref} (hslot : h.openSlot? r = some slot) (hle : start ≤ slot)
    (hnot : r ∉ rest) (hrest : Closed stack start rest
      (h.update r fun _ => .upvalue (.closed (stack.getD slot .nil))) kept h') :
    Closed stack start (r :: rest) h kept h' := by
  let next := h.update r fun _ => .upvalue (.closed (stack.getD slot .nil))
  have hfirst : next.get? r = some (.upvalue (.closed (stack.getD slot .nil))) := by
    rw [get?_update, if_pos rfl, openSlot?_eq_some.1 hslot]
    rfl
  have hget {s : Ref} (hs : r ≠ s) : next.get? s = h.get? s :=
    (get?_update r _ s).trans (if_neg hs)
  have hother {s : Ref} (hs : r ≠ s) : next.openSlot? s = h.openSlot? s := by
    rw [openSlot?_eq, openSlot?_eq, hget hs]
  have hne {s : Ref} (hs : s ∈ rest) : r ≠ s := fun heq => hnot (heq ▸ hs)
  refine ⟨hrest.lined, ?_, fun s hs k hk hle => ?_, fun s hs => ?_, fun ht => hrest.tidy ?_⟩
  · rw [hrest.kept, List.filter_cons_of_neg (by simpa [hslot] using hle)]
    exact List.filter_congr fun s hs => by rw [hother (hne hs)]
  · rcases List.mem_cons.1 hs with rfl | hs
    · rw [hrest.other s fun hmem => absurd hmem hnot, ← Option.some.inj (hslot.symm.trans hk)]
      exact hfirst
    · exact hrest.closed s hs k ((hother (hne hs)).trans hk) hle
  · have hne : r ≠ s := by
      rintro rfl
      exact absurd (hs List.mem_cons_self slot hslot) (Nat.not_lt.2 hle)
    rw [hrest.other s fun hmem k hk => hs (List.mem_cons_of_mem r hmem) k ((hother hne).symm.trans hk)]
    exact hget hne
  · exact ⟨ht.wellFormed.update r _, ht.rest.update r _⟩

theorem closed_closeCells (hlined : h.Lined refs) :
    Closed stack start refs h (closeCells stack start refs h).1 (closeCells stack start refs h).2 := by
  induction refs generalizing h with
  | nil => exact .of_below hlined nofun
  | cons r rest ih =>
    cases hlined with
    | @cons _ slot _ hslot hbelow hrest =>
      unfold closeCells
      rw [hslot]
      dsimp only
      by_cases hlt : slot < start
      · rw [if_pos hlt]
        refine .of_below (.cons hslot hbelow hrest) fun k hk => ?_
        obtain ⟨s, hs, hsslot⟩ := mem_openSlots.1 hk
        rcases List.mem_cons.1 hs with rfl | hmem
        · rwa [← Option.some.inj (hslot.symm.trans hsslot)]
        · have hlow := hbelow k (mem_openSlots.2 ⟨s, hmem, hsslot⟩)
          omega
      · rw [if_neg hlt]
        have hnot : r ∉ rest := fun hmem =>
          absurd (hbelow slot (mem_openSlots.2 ⟨r, hmem, hslot⟩)) (Nat.lt_irrefl slot)
        refine .cons hslot (Nat.not_lt.1 hlt) hnot (ih (hrest.of_same fun s hs => ?_))
        have hne : ¬ r = s := fun heq => hnot (heq ▸ hs)
        rw [openSlot?_eq, openSlot?_eq, get?_update, if_neg hne]

end Heap

namespace Machine

variable {m : Machine}

/-- The slots of the captured variables that are on the stack. -/
def openSlots (m : Machine) : List Nat := m.heap.openSlots m.openUpvalues

/-! Capturing a slot. -/

/-- Capturing a slot finds the open cell of the slot, or puts a new one between those above and
those below. -/
theorem captureSlot_cases (hlined : m.heap.Lined m.openUpvalues) (slot : Nat) :
    (∃ r ∈ m.openUpvalues, m.heap.openSlot? r = some slot ∧ m.captureSlot slot = (r, m)) ∨
    (∀ r ∈ m.openUpvalues, m.heap.openSlot? r ≠ some slot) ∧
      m.captureSlot slot =
        ((m.heap.alloc (.upvalue (.opened slot))).1,
          { m with
            heap := (m.heap.alloc (.upvalue (.opened slot))).2
            openUpvalues := m.openUpvalues.takeWhile (isAbove m.heap slot) ++
              (m.heap.alloc (.upvalue (.opened slot))).1 ::
                m.openUpvalues.dropWhile (isAbove m.heap slot) }) := by
  unfold captureSlot
  dsimp only
  split
  · rename_i r hfound
    obtain ⟨hhead, hslot⟩ := Option.filter_eq_some_iff.1 hfound
    have hmem : r ∈ m.openUpvalues :=
      (List.dropWhile_sublist _).subset (List.mem_of_mem_head? hhead)
    exact Or.inl ⟨r, hmem, by simpa using hslot, rfl⟩
  · rename_i hnone
    refine Or.inr ⟨fun s hs hslot => ?_, rfl⟩
    rw [hlined.head?_dropWhile hs hslot, Option.filter_some, hslot] at hnone
    simp at hnone

/-- Putting a cell in adds it to the others. -/
theorem mem_of_mem_inserted {p : Ref → Bool} {cells : List Ref} {r s : Ref}
    (hs : s ∈ cells.takeWhile p ++ r :: cells.dropWhile p) : s = r ∨ s ∈ cells := by
  rw [List.mem_append, List.mem_cons] at hs
  rcases hs with habove | rfl | hbelow
  · exact Or.inr ((List.takeWhile_sublist p).subset habove)
  · exact Or.inl rfl
  · exact Or.inr ((List.dropWhile_sublist p).subset hbelow)

end Machine

end ScriptMachine
