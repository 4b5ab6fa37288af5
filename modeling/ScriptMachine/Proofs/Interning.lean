import ScriptMachine.Proofs.PoolTexts

/-!
Texts over time. A pool starts out empty, and texts are interned, marked and swept in any order.
After every such history a text and its reference stand for each other: a live text has one
reference, interning and looking up find it, and it stays good for as long as it is marked before
each sweep.
-/

namespace ScriptMachine.Pool

/-- What is done to a pool. -/
inductive Event where
  | intern (text : String)
  | mark (index : Nat)
  | sweep
deriving DecidableEq, Repr

def Event.apply (p : Pool) : Event → Pool
  | intern text => (p.intern text).2
  | mark i => p.mark i
  | sweep => p.sweep.2

/-- The pool after a history. -/
def run (p : Pool) (history : List Event) : Pool := history.foldl Event.apply p

/-- Slot i is marked before each sweep of a history, and after the sweep before it. For the first
sweep it may have been marked before the history. -/
def Spared (i : Nat) : (marked : Bool) → List Event → Prop
  | _, [] => True
  | marked, .intern _ :: rest => Spared i marked rest
  | marked, .mark j :: rest => Spared i (marked || j == i) rest
  | marked, .sweep :: rest => marked = true ∧ Spared i false rest

/-! One event, then all of them. -/

theorem WellFormed.apply {p : Pool} (h : p.WellFormed) (e : Event) : (e.apply p).WellFormed := by
  cases e with
  | intern text => exact h.intern text
  | mark i => exact h.mark i
  | sweep => exact h.sweep

theorem WellFormed.run {p : Pool} (h : p.WellFormed) (history : List Event) :
    (p.run history).WellFormed := by
  induction history generalizing p with
  | nil => exact h
  | cons e rest ih => exact ih (h.apply e)

/-- An event that does not sweep the text away leaves it as it is. -/
theorem WellFormed.get?_apply {p : Pool} (h : p.WellFormed) (e : Event) {i : Nat} {x : Interned}
    (hx : p.arena.get? i = some x) (hmarked : e = .sweep → p.isMarked i = true) :
    (e.apply p).arena.get? i = some x := by
  cases e with
  | intern text => exact h.get?_intern text hx
  | mark j => exact (p.get?_mark j i).trans hx
  | sweep => exact get?_sweep.2 ⟨hx, hmarked rfl⟩

/-- The mark of a text that is held stays when another is interned. -/
theorem WellFormed.isMarked_intern {p : Pool} (h : p.WellFormed) (text : String) {i : Nat}
    {x : Interned} (hx : p.arena.get? i = some x) :
    (p.intern text).2.isMarked i = p.isMarked i := by
  unfold isMarked Arena.isMarked
  rw [h.cell?_intern_of_held text hx]

/-- Marks are only needed since the last sweep, so the induction is on the history with what was
marked before it. -/
theorem WellFormed.get?_run {p : Pool} (h : p.WellFormed) {i : Nat} {x : Interned}
    (hx : p.arena.get? i = some x) {marked : Bool} (hmarked : marked = true → p.isMarked i = true)
    {history : List Event} (hspared : Spared i marked history) :
    (p.run history).arena.get? i = some x := by
  induction history generalizing p marked with
  | nil => exact hx
  | cons e rest ih =>
    cases e with
    | intern text =>
      refine ih (h.intern text) (h.get?_apply (.intern text) hx nofun) (fun hbefore => ?_) hspared
      exact (h.isMarked_intern text hx).trans (hmarked hbefore)
    | mark j =>
      refine ih (h.mark j) (h.get?_apply (.mark j) hx nofun) (fun hsince => ?_) hspared
      rcases Bool.or_eq_true_iff.1 hsince with hbefore | hnow
      · exact (p.isMarked_mark j i).2 (Or.inl (hmarked hbefore))
      · exact (p.isMarked_mark j i).2 (Or.inr ⟨beq_iff_eq.1 hnow, by rw [hx]; rfl⟩)
    | sweep =>
      have hnone : false = true → p.sweep.2.isMarked i = true := nofun
      exact ih h.sweep (h.get?_apply .sweep hx fun _ => hmarked hspared.1) hnone hspared.2

/-! The size of a pool. -/

theorem size_intern_le (p : Pool) (text : String) :
    (p.intern text).2.arena.slots.size ≤ p.arena.slots.size + 1 := by
  cases hlookup : p.lookup? text with
  | some i => simp [intern_of_held hlookup]
  | none =>
    rw [intern_of_new hlookup]
    cases hfree : p.arena.free with
    | nil => simp [Arena.allocate_of_full hfree]
    | cons i rest => simp [Arena.allocate_of_free hfree]

theorem size_mark (p : Pool) (i : Nat) : (p.mark i).arena.slots.size = p.arena.slots.size := by
  have hmark : (p.arena.mark i).2.slots.size = p.arena.slots.size := by
    unfold Arena.mark
    split <;> simp [Arena.modifyCell]
  unfold mark
  split
  · rename_i arena heq
    rw [heq] at hmark
    simpa [Arena.blacken, Arena.modifyCell] using hmark
  · rename_i arena heq
    rw [heq] at hmark
    exact hmark

theorem size_apply_le (p : Pool) (e : Event) :
    (e.apply p).arena.slots.size ≤ p.arena.slots.size + 1 := by
  cases e with
  | intern text => exact p.size_intern_le text
  | mark i => simp [Event.apply, size_mark]
  | sweep => simp [Event.apply, sweep, Arena.sweep]

/-- A history takes at most one slot for each event. -/
theorem size_run_le (p : Pool) (history : List Event) :
    (p.run history).arena.slots.size ≤ p.arena.slots.size + history.length := by
  induction history generalizing p with
  | nil => exact Nat.le_refl _
  | cons e rest ih =>
    have hfirst := p.size_apply_le e
    have hrest := ih (e.apply p)
    simp only [run, List.foldl_cons, List.length_cons] at hrest ⊢
    omega

/-! References. -/

theorem get?_eq_some {p : Pool} {r : Ref} {x : Interned} :
    p.get? r = some x ↔ ∃ i, r = .text i ∧ p.arena.get? i = some x := by
  cases r with
  | text i => simp [get?]
  | object i => simp [get?]

/-- References below the limit keep their index when they are packed. -/
theorem packedText_of_lt {i : Nat} (h : i < Ref.indexLimit) : Ref.packedText i = .text i := by
  rw [Ref.packedText, Nat.mod_eq_of_lt h]

theorem bits_text_inj {i j : Nat} (hi : i < Ref.indexLimit) (hj : j < Ref.indexLimit) :
    (Ref.text i).bits = (Ref.text j).bits ↔ i = j := by
  simp only [Ref.bits, Nat.mod_eq_of_lt hi, Nat.mod_eq_of_lt hj]
  omega

/-- A new text lies in a slot that exists already or is the next one. -/
theorem WellFormed.slot_intern_le {p : Pool} (h : p.WellFormed) (text : String) :
    (p.intern text).1.1 ≤ p.arena.slots.size := by
  cases hlookup : p.lookup? text with
  | some i =>
    obtain ⟨x, hx, -⟩ := (h.indexed text i).1 hlookup
    rw [intern_of_held hlookup]
    exact Nat.le_of_lt (Arena.lt_size_of_get? hx)
  | none =>
    rw [intern_of_new hlookup]
    cases hfree : p.arena.free with
    | nil => simp [Arena.allocate_of_full hfree]
    | cons i rest =>
      have hi := h.arena.vacant_of_free hfree
      simp only [Arena.allocate_of_free hfree]
      omega

/-- A text is created exactly when no slot holds it. -/
theorem WellFormed.created_iff {p : Pool} (h : p.WellFormed) (text : String) :
    (p.intern text).1.2 = true ↔ ¬ ∃ i x, p.arena.get? i = some x ∧ x.text = text := by
  cases hlookup : p.lookup? text with
  | some i =>
    have hheld := (h.indexed text i).1 hlookup
    rw [intern_of_held hlookup]
    simpa using ⟨i, hheld⟩
  | none =>
    rw [intern_of_new hlookup]
    simp only [true_iff]
    rintro ⟨i, hheld⟩
    rw [(h.indexed text i).2 hheld] at hlookup
    simp at hlookup

theorem WellFormed.vacant_of_created {p : Pool} (h : p.WellFormed) {text : String}
    (hcreated : (p.intern text).1.2 = true) : p.arena.get? (p.intern text).1.1 = none := by
  cases hlookup : p.lookup? text with
  | some i => simp [intern_of_held hlookup] at hcreated
  | none =>
    rw [intern_of_new hlookup]
    simp [Arena.get?, h.arena.allocate_vacant]

/-! The main result. -/

/-- Texts and their references stand for each other. -/
structure Canonical (p : Pool) : Prop where
  /-- The index and the occupied slots are inverse to each other. -/
  indexed : ∀ text i, p.lookup? text = some i ↔ ∃ x, p.arena.get? i = some x ∧ x.text = text
  hashed : ∀ i x, p.arena.get? i = some x → x.hash = Hash.text x.text
  /-- Live references are equal when their texts are, as they are and packed. -/
  equal : ∀ r s x y, p.get? r = some x → p.get? s = some y →
    (r = s ↔ x.text = y.text) ∧ (r.bits = s.bits ↔ x.text = y.text)
  /-- A text that is live is found, and nothing changes. -/
  found : ∀ text i x, p.arena.get? i = some x → x.text = text → p.intern text = ((i, false), p)
  /-- A text that is not live comes to a slot that was vacant. -/
  fresh : ∀ text, (¬ ∃ i x, p.arena.get? i = some x ∧ x.text = text) →
    (p.intern text).1.2 = true ∧ p.arena.get? (p.intern text).1.1 = none
  /-- The reference that interning gives is good when packed, and looking up gives it again. -/
  given : ∀ text,
    (p.intern text).2.get? (.packedText (p.intern text).1.1) = some ⟨text, Hash.text text⟩ ∧
    (p.intern text).2.lookup? text = some (p.intern text).1.1
  /-- Looking up answers as interning would, without creating the text. -/
  looked : ∀ text, p.lookup? text =
    if (p.intern text).1.2 = true then none else some (p.intern text).1.1
  /-- A reference keeps its text for as long as it is marked before every sweep. -/
  kept : ∀ r x later, p.get? r = some x → Spared r.index (p.isMarked r.index) later →
    (p.run later).get? r = some x

theorem WellFormed.equal {p : Pool} (h : p.WellFormed) (hfew : p.arena.slots.size < Ref.indexLimit)
    {r s : Ref} {x y : Interned} (hr : p.get? r = some x) (hs : p.get? s = some y) :
    (r = s ↔ x.text = y.text) ∧ (r.bits = s.bits ↔ x.text = y.text) := by
  obtain ⟨i, rfl, hi⟩ := get?_eq_some.1 hr
  obtain ⟨j, rfl, hj⟩ := get?_eq_some.1 hs
  have hslot : i = j ↔ x.text = y.text := by
    constructor
    · intro hij
      rw [← hij, hi] at hj
      exact congrArg Interned.text (Option.some.inj hj)
    · exact h.slot_unique hi hj
  have hibound := Arena.lt_size_of_get? hi
  have hjbound := Arena.lt_size_of_get? hj
  rw [bits_text_inj (by omega) (by omega), Ref.text.injEq]
  exact ⟨hslot, hslot⟩

theorem lookup?_eq (p : Pool) (text : String) :
    p.lookup? text = if (p.intern text).1.2 = true then none else some (p.intern text).1.1 := by
  cases hlookup : p.lookup? text with
  | some i => simp [intern_of_held hlookup]
  | none => simp [intern_of_new hlookup]

theorem WellFormed.given {p : Pool} (h : p.WellFormed) (hfew : p.arena.slots.size < Ref.indexLimit)
    (text : String) :
    (p.intern text).2.get? (.packedText (p.intern text).1.1) = some ⟨text, Hash.text text⟩ ∧
    (p.intern text).2.lookup? text = some (p.intern text).1.1 := by
  have hheld := h.get?_intern_self text
  have hslot := h.slot_intern_le text
  constructor
  · rw [packedText_of_lt (by omega)]
    exact hheld
  · exact ((h.intern text).indexed text _).2 ⟨_, hheld, rfl⟩

theorem WellFormed.canonical {p : Pool} (h : p.WellFormed)
    (hfew : p.arena.slots.size < Ref.indexLimit) : p.Canonical where
  indexed := h.indexed
  hashed := h.hashed
  equal _ _ _ _ hr hs := h.equal hfew hr hs
  found text i x hx htext := intern_of_held ((h.indexed text i).2 ⟨x, hx, htext⟩)
  fresh text hnone :=
    have hcreated := (h.created_iff text).2 hnone
    ⟨hcreated, h.vacant_of_created hcreated⟩
  given := h.given hfew
  looked := p.lookup?_eq
  kept r x later hr hspared := by
    obtain ⟨i, rfl, hi⟩ := get?_eq_some.1 hr
    exact get?_eq_some.2 ⟨i, rfl, h.get?_run hi id hspared⟩

/-- Interning is canonical after every history of a pool that began empty. -/
theorem interning_canonical (history : List Event)
    (hfew : (empty.run history).arena.slots.size < Ref.indexLimit) :
    (empty.run history).Canonical :=
  (wellFormed_empty.run history).canonical hfew

/-- Two new texts take the first two slots. -/
theorem arena_intern_twice : ((empty.intern "a").2.intern "b").2.arena =
    { slots := #[some ⟨⟨"a", Hash.text "a"⟩, footprint "a", .white⟩,
        some ⟨⟨"b", Hash.text "b"⟩, footprint "b", .white⟩]
      live := 2 } := by
  have hfirst : empty.lookup? "a" = none := by simp [lookup?, empty]
  have hsecond : (empty.intern "a").2.lookup? "b" = none := by
    rw [intern_of_new hfirst]
    simp [lookup?, empty]
  rw [intern_of_new hsecond, intern_of_new hfirst]
  rfl

/-- After the sweep the first slot is free, and no slot holds the third text. -/
theorem intern_recycled :
    ((empty.run [.intern "a", .intern "b", .mark 1, .sweep]).intern "c").1.1 = 0 := by
  have harena : (empty.run [.intern "a", .intern "b", .mark 1, .sweep]).arena =
      { slots := #[none, some ⟨⟨"b", Hash.text "b"⟩, footprint "b", .white⟩]
        free := [0]
        live := 1 } := by
    show (Pool.mark _ 1).sweep.2.arena = _
    simp only [mark, sweep, Event.apply, arena_intern_twice]
    simp [Arena.mark, Arena.isWhite, Arena.cell?, Arena.modifyCell, Arena.blacken, Arena.sweep,
      Arena.unreached, Arena.sweptSlot, Cell.isMarked]
  cases hlookup : (empty.run [.intern "a", .intern "b", .mark 1, .sweep]).lookup? "c" with
  | none =>
    rw [intern_of_new hlookup, harena]
    rfl
  | some i =>
    obtain ⟨x, hx, htext⟩ := ((wellFormed_empty.run _).indexed "c" i).1 hlookup
    rw [harena] at hx
    have hlt : i < 2 := Arena.lt_size_of_get? hx
    obtain rfl | rfl : i = 0 ∨ i = 1 := by omega
    · cases hx
    · obtain rfl := Option.some.inj hx
      exact absurd htext (by decide)

/-- The second of two texts stays where it is, and a third takes the slot of the first. -/
theorem interning_canonical_recycled :
    let history : List Event := [.intern "a", .intern "b", .mark 1, .sweep, .intern "c"]
    (empty.run history).arena.slots.size < Ref.indexLimit ∧ (empty.run history).Canonical ∧
      (empty.run history).get? (.text 1) = some ⟨"b", Hash.text "b"⟩ ∧
      (empty.run history).get? (.text 0) = some ⟨"c", Hash.text "c"⟩ := by
  intro history
  have hfew (history : List Event) (hlength : 0 + history.length < Ref.indexLimit) :
      (empty.run history).arena.slots.size < Ref.indexLimit :=
    Nat.lt_of_le_of_lt (empty.size_run_le history) hlength
  have hcanonical := interning_canonical [.intern "a", .intern "b"] (hfew _ (by decide))
  have hsecond : (empty.run [.intern "a", .intern "b"]).get? (.text 1) =
      some ⟨"b", Hash.text "b"⟩ := congrArg (Arena.get? · 1) arena_intern_twice
  have hkept := hcanonical.kept (.text 1) _ [.mark 1, .sweep, .intern "c"] hsecond
    ⟨Bool.or_true _, trivial⟩
  have hthird := (wellFormed_empty.run [.intern "a", .intern "b", .mark 1, .sweep]).get?_intern_self
    "c"
  rw [intern_recycled] at hthird
  exact ⟨hfew _ (by decide), interning_canonical _ (hfew _ (by decide)), hkept, hthird⟩

end ScriptMachine.Pool
