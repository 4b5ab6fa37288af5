import ScriptMachine.Proofs.Machine.Activations
import ScriptMachine.Proofs.Machine.Captures.OpenCells
import ScriptMachine.Proofs.Machine.ClassChains

/-!
Open cells in every session. The list of open cells starts with the highest slot, no slot has two,
and without a call it is empty. Capturing a slot finds its cell or puts a new one in its place, and
closing cells from a slot on takes the values of the stack along, so whoever reads a cell does not
notice.
-/

namespace ScriptMachine

namespace Heap

variable {h : Heap} {refs : List Ref}

theorem Lined.descending (hlined : h.Lined refs) : (h.openSlots refs).Pairwise (· > ·) := by
  induction hlined with
  | nil => exact .nil
  | @cons r slot rest hslot hbelow _ ih =>
    unfold openSlots at hbelow ih ⊢
    rw [List.filterMap_cons_some hslot]
    exact .cons hbelow ih

end Heap

namespace Machine

variable {host : Host} {settings : Settings} {m : Machine} {r : Ref} {v : Value}

/-! A new machine has captured nothing. -/

theorem openUpvalues_allocEach {α : Type} (make : α → Object) (as : List α) (m : Machine) :
    (m.allocEach make as).2.openUpvalues = m.openUpvalues := by
  induction as generalizing m with
  | nil => rfl
  | cons a rest ih => exact ih _

theorem openUpvalues_installExceptions (init : Value) (root : Option Ref)
    (kinds : List ExceptionKind) (m : Machine) :
    (m.installExceptions init root kinds).2.openUpvalues = m.openUpvalues := by
  induction kinds generalizing m root with
  | nil => rfl
  | cons kind rest ih => exact ih _ _

theorem openUpvalues_new (settings : Settings) : (Machine.new settings).openUpvalues = [] := by
  unfold Machine.new
  dsimp only
  rw [openUpvalues_installExceptions]
  generalize hm : ({ settings, heap := _, builtins := _ } : Machine) = m
  have hprimitives := openUpvalues_allocEach (fun p : Primitive => .cls { name := p.name })
    Primitive.all m
  generalize m.allocEach (fun p => .cls { name := p.name }) Primitive.all = primitives
    at hprimitives ⊢
  exact hprimitives.trans (hm ▸ rfl)

theorem kempt_new (settings : Settings) : (Machine.new settings).Kempt := by
  refine ⟨(acyclic_new settings).bonded, ?_, ?_⟩
  · rw [openUpvalues_new]
    exact .nil
  · rw [openUpvalues_new]
    exact nofun

/-- Every session keeps its machine kempt. -/
theorem Reached.kempt (horderly : host.Orderly) (hreached : Reached host settings m) : m.Kempt := by
  induction hreached with
  | new => exact kempt_new settings
  | request hreached q hproper ih => exact ih.request (hreached.sound horderly) hproper
  | collect _ ih => exact ih.collect
  | act hreached a hproper ih => exact ih.act horderly (hreached.sound horderly) hproper

/-! What is read through a cell. -/

/-- The value read through a cell: that of its slot, while the cell is open. -/
def cellValue? (m : Machine) (r : Ref) : Option Value :=
  match m.heap.get? r with
  | some (.upvalue (.opened slot)) => m.stack[slot]?
  | some (.upvalue (.closed v)) => some v
  | _ => none

theorem cellValue?_opened {slot : Nat} (hslot : m.heap.openSlot? r = some slot) :
    m.cellValue? r = m.stack[slot]? := by
  rw [cellValue?, Heap.openSlot?_eq_some.1 hslot]

/-- A captured variable is read through its cell. -/
theorem readUpvalue_ok {index : Nat} (hr : frameUpvalue index m = .ok r m) :
    readUpvalue index m = .ok v m ↔ m.cellValue? r = some v := by
  unfold readUpvalue cellValue?
  rw [bind_of_ok hr, get_bind]
  have hpure (w : Value) : (pure w : Exec Value) m = .ok v m ↔ w = v :=
    ⟨fun h => by cases h; rfl, fun h => h ▸ rfl⟩
  have hbreach (b : Breach) : (breach b : Exec Value) m ≠ .ok v m := nofun
  split
  · rename_i slot hopened
    rw [hopened]
    dsimp only
    cases m.stack[slot]? with
    | some w => simpa using hpure w
    | none => simpa using hbreach _
  · rename_i w hclosed
    rw [hclosed]
    simpa using hpure w
  · rename_i hopened hclosed
    simpa using hbreach _

/-! The list of open cells. -/

/-- All cells of the list are open, each below those before it. -/
structure InLine (m : Machine) : Prop where
  opened : ∀ r ∈ m.openUpvalues, ∃ slot, m.heap.get? r = some (.upvalue (.opened slot))
  descending : m.openSlots.Pairwise (· > ·)

theorem inLine_of_lined (hlined : m.heap.Lined m.openUpvalues) : m.InLine where
  opened r hr := by
    obtain ⟨slot, hslot⟩ := hlined.exists_slot hr
    exact ⟨slot, Heap.openSlot?_eq_some.1 hslot⟩
  descending := hlined.descending

/-- A slot is captured by its open cell if it has one, and else by a new one, which takes its place
in the line. -/
structure CapturesSlot (m : Machine) (slot : Nat) : Prop where
  found : ∀ r ∈ m.openUpvalues, m.heap.openSlot? r = some slot → m.captureSlot slot = (r, m)
  found_iff : (m.captureSlot slot).1 ∈ m.openUpvalues ↔ slot ∈ m.openSlots
  made : slot ∉ m.openSlots → ∃ above below, m.openUpvalues = above ++ below ∧
    m.captureSlot slot =
      ((m.heap.alloc (.upvalue (.opened slot))).1,
        { m with
          heap := (m.heap.alloc (.upvalue (.opened slot))).2
          openUpvalues := above ++ (m.heap.alloc (.upvalue (.opened slot))).1 :: below })
  inLine : (m.captureSlot slot).2.InLine
  captured : (m.captureSlot slot).2.heap.openSlot? (m.captureSlot slot).1 = some slot
  others : ∀ r o, m.heap.get? r = some o → (m.captureSlot slot).2.heap.get? r = some o

/-- The cells from a slot on are closed and come off the list, and nothing else changes. -/
structure ClosesFrom (m : Machine) (start : Nat) : Prop where
  kept : (m.closeUpvalues start).openUpvalues =
    m.openUpvalues.filter fun r => (m.heap.openSlot? r).any fun k => decide (k < start)
  closed : ∀ r ∈ m.openUpvalues, ∀ k, m.heap.openSlot? r = some k → start ≤ k →
    (m.closeUpvalues start).heap.get? r = some (.upvalue (.closed (m.stack.getD k .nil)))
  others : ∀ r, (r ∈ m.openUpvalues → ∀ k, m.heap.openSlot? r = some k → k < start) →
    (m.closeUpvalues start).heap.get? r = m.heap.get? r
  rest : m.closeUpvalues start =
    { m with
      heap := (m.closeUpvalues start).heap, openUpvalues := (m.closeUpvalues start).openUpvalues }
  values : ∀ r, (∀ k, m.heap.openSlot? r = some k → k < m.stack.size) →
    (m.closeUpvalues start).cellValue? r = m.cellValue? r

theorem capturesSlot (htidy : m.heap.Tidy) (hlined : m.heap.Lined m.openUpvalues) (slot : Nat) :
    m.CapturesSlot slot := by
  obtain ⟨hextends, -, hcaptured⟩ := extends_captureSlot htidy hlined slot
  have hcases := captureSlot_cases hlined slot
  have hfound : ∀ r ∈ m.openUpvalues, m.heap.openSlot? r = some slot →
      m.captureSlot slot = (r, m) := by
    intro r hr hslot
    rcases hcases with ⟨s, hs, hsslot, heq⟩ | ⟨hfree, -⟩
    · rw [heq, hlined.eq_of_slot hr hs hslot hsslot]
    · exact absurd hslot (hfree r hr)
  refine ⟨hfound, ⟨fun hmem => ?_, fun hslot => ?_⟩, fun hslot => ?_,
    inLine_of_lined hextends.lined, hcaptured, hextends.old⟩
  · obtain ⟨k, hk⟩ := hlined.exists_slot hmem
    obtain rfl := Option.some.inj ((hextends.openSlot? hk).symm.trans hcaptured)
    exact Heap.mem_openSlots.2 ⟨_, hmem, hk⟩
  · obtain ⟨r, hr, hrslot⟩ := Heap.mem_openSlots.1 hslot
    rw [hfound r hr hrslot]
    exact hr
  · rcases hcases with ⟨r, hr, hrslot, -⟩ | ⟨-, heq⟩
    · exact absurd (Heap.mem_openSlots.2 ⟨r, hr, hrslot⟩) hslot
    · exact ⟨_, _, List.takeWhile_append_dropWhile.symm, heq⟩

theorem closesFrom (hlined : m.heap.Lined m.openUpvalues) (start : Nat) : m.ClosesFrom start := by
  have hclosed : Heap.Closed m.stack start m.openUpvalues m.heap _ _ :=
    Heap.closed_closeCells hlined
  refine ⟨hclosed.kept, hclosed.closed, hclosed.other, rfl, fun r hwithin => ?_⟩
  by_cases hr : r ∈ m.openUpvalues ∧ ∃ k, m.heap.openSlot? r = some k ∧ start ≤ k
  · obtain ⟨hmem, k, hk, hle⟩ := hr
    have hlt := hwithin k hk
    have hget : (m.closeUpvalues start).heap.get? r =
        some (.upvalue (.closed (m.stack.getD k .nil))) := hclosed.closed r hmem k hk hle
    rw [cellValue?_opened hk, cellValue?, hget, Array.getElem?_eq_getElem hlt]
    simp [hlt]
  · have hsame := hclosed.other r fun hmem k hk => by
      by_contra hge
      exact hr ⟨hmem, k, hk, by omega⟩
    have hget : (m.closeUpvalues start).heap.get? r = m.heap.get? r := hsame
    rw [cellValue?, cellValue?, hget]
    rfl

/-- In every session the open cells are in line, without a call there are none, and capturing and
closing keep to the line. -/
theorem open_cells_in_line (horderly : host.Orderly) (hreached : Reached host settings m) :
    m.InLine ∧ (m.frames = [] → m.openUpvalues = []) ∧ (∀ slot, m.CapturesSlot slot) ∧
      ∀ start, m.ClosesFrom start := by
  have hm := hreached.kempt horderly
  refine ⟨inLine_of_lined hm.lined, fun hframes => ?_, capturesSlot hm.tidy hm.lined,
    closesFrom hm.lined⟩
  rw [Machine.Kempt, bases, hframes] at hm
  exact hm.eq_nil

/-- A script with a variable that a function captures. -/
def captureScript (function : Ref) : Blob :=
  let made := ((({ constants := #[.ref function] } : Blob).pushOp .pushNil 1).pushOp
    .makeClosure 2).pushShort 0 2
  ((made.pushByte 1 2).pushShort 1 2).pushOp .ret 3

/-- A new machine in which a script has captured its variable. -/
def withCapture : Machine :=
  let stored := (Machine.new {}).heap.alloc (.function setter)
  (run (Host.stock .closed) 2 (.script (captureScript stored.1))
    { Machine.new {} with heap := stored.2 }).2

theorem open_cells_in_line_withCapture :
    withCapture.InLine ∧ (withCapture.frames = [] → withCapture.openUpvalues = []) ∧
      (∀ slot, withCapture.CapturesSlot slot) ∧ ∀ start, withCapture.ClosesFrom start := by
  have hstored : Reached (Host.stock .closed) {} ((Machine.new {}).alloc (.function setter)).2 :=
    .request .new (.alloc (.function setter)) ⟨trivial, nofun⟩
  refine open_cells_in_line Host.orderly_stock (hstored.run 2 fun v hv r hr => ?_)
  obtain rfl := Array.mem_singleton.1 hv
  rw [List.mem_singleton.1 hr]
  exact Heap.occupied_of_get? (Heap.get?_alloc_self (sound_new {}).heap _)

end Machine

end ScriptMachine
