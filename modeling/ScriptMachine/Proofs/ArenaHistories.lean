import ScriptMachine.Proofs.ArenaSlots

/-!
An arena over its whole life. Values are stored, changed in place and shaded in any order, and
sweeps come at any point between. The free list and the count of live values stay right through
all of it, so a value never lands on an occupied slot, and a sweep releases each white slot once.
-/

namespace ScriptMachine.Arena

variable {α : Type}

/-- One change to an arena. -/
inductive Change (α : Type) where
  | allocate (value : α) (size : Nat)
  | modify (i : Nat) (f : α → α)
  | mark (i : Nat)
  | blacken (i : Nat)
  | sweep

/-- The arena that a change leaves. -/
def Change.apply (a : Arena α) : Change α → Arena α
  | .allocate value size => (a.allocate value size).2
  | .modify i f => a.modify i f
  | .mark i => (a.mark i).2
  | .blacken i => a.blacken i
  | .sweep => a.sweep.arena

/-- The arena that a sequence of changes makes of an empty one. -/
def after (changes : List (Change α)) : Arena α := changes.foldl Change.apply empty

theorem WellFormed.apply {a : Arena α} (h : a.WellFormed) (change : Change α) :
    (change.apply a).WellFormed := by
  cases change with
  | allocate value size => exact h.allocate value size
  | modify i f => exact h.modify i f
  | mark i => exact h.mark i
  | blacken i => exact h.blacken i
  | sweep => exact h.sweep

theorem WellFormed.foldl {a : Arena α} (h : a.WellFormed) (changes : List (Change α)) :
    (changes.foldl Change.apply a).WellFormed := by
  induction changes generalizing a with
  | nil => exact h
  | cons change rest ih => exact ih (h.apply change)

theorem wellFormed_after (changes : List (Change α)) : (after changes).WellFormed :=
  wellFormed_empty.foldl changes

/-- Storing x finds a vacant slot, and fills that slot alone. -/
structure Places (a : Arena α) (x : α) (size : Nat) : Prop where
  vacant : a.cell? (a.allocate x size).1 = none
  filled : (a.allocate x size).2.cell? (a.allocate x size).1 = some { value := x, size }
  others : ∀ j, j ≠ (a.allocate x size).1 → (a.allocate x size).2.cell? j = a.cell? j

theorem WellFormed.places {a : Arena α} (h : a.WellFormed) (x : α) (size : Nat) :
    a.Places x size where
  vacant := h.allocate_vacant x size
  filled := by rw [h.cell?_allocate, if_pos rfl]
  others j hj := by rw [h.cell?_allocate, if_neg hj]

/-- A sweep releases the white cells, each once and as it was, and whitens the others. -/
structure SweepsWhite (a : Arena α) : Prop where
  released_iff : ∀ i c, (i, c) ∈ a.sweep.released ↔ a.cell? i = some c ∧ c.colour = .white
  once : (a.sweep.released.map Prod.fst).Nodup
  vacated : ∀ i c, a.cell? i = some c → c.colour = .white → a.sweep.arena.cell? i = none
  survivors : ∀ i c, a.cell? i = some c → c.colour ≠ .white →
    a.sweep.arena.cell? i = some { c with colour := .white }
  vacant : ∀ i, a.cell? i = none → a.sweep.arena.cell? i = none
  counted : a.sweep.arena.live + a.sweep.released.length = a.live

theorem WellFormed.sweepsWhite {a : Arena α} (h : a.WellFormed) : a.SweepsWhite where
  released_iff i c := by
    have hwhite : c.isMarked = false ↔ c.colour = .white := by simp [Cell.isMarked]
    rw [← hwhite]
    exact mem_unreached
  once := a.unreached_nodup
  vacated i c hcell hwhite := by simp [cell?_sweep, hcell, sweptSlot, Cell.isMarked, hwhite]
  survivors i c hcell hmarked := by
    simp [cell?_sweep, hcell, sweptSlot, Cell.isMarked, hmarked]
  vacant i hcell := by rw [cell?_sweep, hcell]; rfl
  counted := by
    have hle : a.unreached.length ≤ a.live := by
      rw [h.live_eq, ← a.length_unreached]
      exact Nat.le_add_right _ _
    exact Nat.sub_add_cancel hle

/-- Every history of an arena leaves the vacant slots on the free list, each once and no others,
and the number of occupied slots as the count. What is stored next takes a vacant slot, and a
sweep releases just the white ones. -/
theorem after_represents (changes : List (Change α)) :
    (after changes).free.Nodup ∧
    (∀ i, i ∈ (after changes).free ↔
      i < (after changes).slots.size ∧ (after changes).cell? i = none) ∧
    (after changes).live = (after changes).slots.countP Option.isSome ∧
    (∀ x size, (after changes).Places x size) ∧
    (after changes).SweepsWhite := by
  have h := wellFormed_after changes
  exact ⟨h.free_nodup, h.mem_free, h.live_eq, h.places, h.sweepsWhite⟩

end ScriptMachine.Arena
