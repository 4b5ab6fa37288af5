import ScriptMachine.Pool
import ScriptMachine.Proofs.ArenaSlots

/-!
The representation of a text pool. The index leads from every held text to its slot and from
nowhere else to anywhere else, and each held text carries its own hash. Interning, marking and
sweeping keep this, and a text that is held before and after one of them is held unchanged.
-/

namespace ScriptMachine.Pool

/-- Index and slots are inverse to each other, and hashes are those of the texts. -/
structure WellFormed (p : Pool) : Prop where
  arena : p.arena.WellFormed
  indexed : ∀ text i, p.lookup? text = some i ↔ ∃ x, p.arena.get? i = some x ∧ x.text = text
  hashed : ∀ i x, p.arena.get? i = some x → x.hash = Hash.text x.text

theorem wellFormed_empty : empty.WellFormed where
  arena := Arena.wellFormed_empty
  indexed text i := by simp [lookup?, empty, Arena.get?, Arena.cell?]
  hashed i x h := by simp [empty, Arena.get?, Arena.cell?] at h

/-- No text is held twice. -/
theorem WellFormed.slot_unique {p : Pool} (h : p.WellFormed) {i j : Nat} {x y : Interned}
    (hx : p.arena.get? i = some x) (hy : p.arena.get? j = some y) (htext : x.text = y.text) :
    i = j := by
  have hi := (h.indexed x.text i).mpr ⟨x, hx, rfl⟩
  have hj := (h.indexed x.text j).mpr ⟨y, hy, htext.symm⟩
  exact Option.some.inj (hi.symm.trans hj)

/-! Interning. -/

theorem intern_of_held {p : Pool} {text : String} {i : Nat} (h : p.lookup? text = some i) :
    p.intern text = ((i, false), p) := by
  simp [intern, h]

theorem intern_of_new {p : Pool} {text : String} (h : p.lookup? text = none) :
    p.intern text =
      (((p.arena.allocate { text, hash := Hash.text text } (footprint text)).1, true),
        { arena := (p.arena.allocate { text, hash := Hash.text text } (footprint text)).2
          index := p.index.insert text
            (p.arena.allocate { text, hash := Hash.text text } (footprint text)).1 }) := by
  simp [intern, h]

/-- Interning gives a slot that holds the text. -/
theorem WellFormed.get?_intern_self {p : Pool} (h : p.WellFormed) (text : String) :
    (p.intern text).2.arena.get? (p.intern text).1.1 = some ⟨text, Hash.text text⟩ := by
  cases hlookup : p.lookup? text with
  | some i =>
    obtain ⟨x, hget, rfl⟩ := (h.indexed text i).mp hlookup
    rw [intern_of_held hlookup, ← h.hashed i x hget]
    exact hget
  | none =>
    rw [intern_of_new hlookup]
    simp [h.arena.get?_allocate]

/-- Interning leaves every slot as it is that holds a text already. -/
theorem WellFormed.cell?_intern_of_held {p : Pool} (h : p.WellFormed) (text : String) {i : Nat}
    {x : Interned} (hx : p.arena.get? i = some x) :
    (p.intern text).2.arena.cell? i = p.arena.cell? i := by
  cases hlookup : p.lookup? text with
  | some j => rw [intern_of_held hlookup]
  | none =>
    rw [intern_of_new hlookup]
    simp only [h.arena.cell?_allocate]
    split
    · rename_i heq
      have hvacant := h.arena.allocate_vacant ⟨text, Hash.text text⟩ (footprint text)
      rw [← heq] at hvacant
      simp [Arena.get?, hvacant] at hx
    · rfl

/-- Interning changes no text that is already held. -/
theorem WellFormed.get?_intern {p : Pool} (h : p.WellFormed) (text : String) {i : Nat}
    {x : Interned} (hx : p.arena.get? i = some x) :
    (p.intern text).2.arena.get? i = some x := by
  rw [← hx, Arena.get?, Arena.get?, h.cell?_intern_of_held text hx]

/-- Interning leaves every slot as it is but for a white one that holds the text. -/
theorem WellFormed.cell?_intern {p : Pool} (h : p.WellFormed) (text : String) (i : Nat) :
    (p.intern text).2.arena.cell? i = p.arena.cell? i ∨
      i = (p.intern text).1.1 ∧
        ∃ c, (p.intern text).2.arena.cell? i = some c ∧ c.colour = .white := by
  cases hlookup : p.lookup? text with
  | some j =>
    rw [intern_of_held hlookup]
    exact Or.inl rfl
  | none =>
    rw [intern_of_new hlookup]
    simp only [h.arena.cell?_allocate]
    by_cases hi : i = (p.arena.allocate ⟨text, Hash.text text⟩ (footprint text)).1
    · exact Or.inr ⟨hi, _, if_pos hi, rfl⟩
    · exact Or.inl (if_neg hi)

theorem WellFormed.intern {p : Pool} (h : p.WellFormed) (text : String) :
    (p.intern text).2.WellFormed := by
  cases hlookup : p.lookup? text with
  | some i =>
    rw [intern_of_held hlookup]
    exact h
  | none =>
    have hvacant := h.arena.allocate_vacant ⟨text, Hash.text text⟩ (footprint text)
    rw [intern_of_new hlookup]
    refine ⟨h.arena.allocate _ _, fun t i => ?_, fun i x hx => ?_⟩
    · simp only [lookup?, Std.HashMap.getElem?_insert, h.arena.get?_allocate]
      by_cases hti : text = t
      · subst hti
        simp only [beq_self_eq_true, if_true, Option.some.injEq]
        constructor
        · rintro rfl
          exact ⟨_, if_pos rfl, rfl⟩
        · rintro ⟨x, hx, htext⟩
          by_contra hne
          rw [if_neg (Ne.symm hne)] at hx
          have := (h.indexed text i).mpr ⟨x, hx, htext⟩
          simp [hlookup] at this
      · have hne : (text == t) = false := by simpa using hti
        simp only [hne, Bool.false_eq_true, if_false]
        rw [show p.index[t]? = p.lookup? t from rfl, h.indexed t i]
        constructor
        · rintro ⟨x, hx, htext⟩
          refine ⟨x, ?_, htext⟩
          rw [if_neg ?_, hx]
          rintro rfl
          simp [Arena.get?, hvacant] at hx
        · rintro ⟨x, hx, htext⟩
          split at hx
          · cases hx
            exact absurd htext hti
          · exact ⟨x, hx, htext⟩
    · rw [h.arena.get?_allocate] at hx
      split at hx
      · cases hx
        rfl
      · exact h.hashed i x hx

/-! Marking. -/

theorem get?_mark (p : Pool) (i j : Nat) : (p.mark i).arena.get? j = p.arena.get? j := by
  have hmark := p.arena.get?_mark i j
  unfold mark
  split
  · rename_i arena heq
    rw [heq] at hmark
    simpa [Arena.get?_blacken] using hmark
  · rename_i arena heq
    rw [heq] at hmark
    exact hmark

theorem lookup?_mark (p : Pool) (i : Nat) (text : String) :
    (p.mark i).lookup? text = p.lookup? text := by
  unfold mark
  split <;> rfl

theorem isMarked_mark (p : Pool) (i j : Nat) :
    (p.mark i).isMarked j = true ↔
      p.isMarked j = true ∨ i = j ∧ (p.arena.get? j).isSome = true := by
  have hmark := p.arena.isMarked_mark i j
  have hget := p.arena.get?_mark i j
  unfold mark isMarked
  split
  · next arena heq =>
    rw [heq] at hmark hget
    rw [Arena.isMarked_blacken, hmark, hget, or_assoc, or_self]
  · next arena heq =>
    rw [heq] at hmark
    exact hmark

theorem WellFormed.mark {p : Pool} (h : p.WellFormed) (i : Nat) : (p.mark i).WellFormed where
  arena := by
    have hmark := h.arena.mark i
    unfold Pool.mark
    split
    · rename_i arena heq
      rw [heq] at hmark
      exact hmark.blacken i
    · rename_i arena heq
      rw [heq] at hmark
      exact hmark
  indexed text j := by
    simp only [lookup?_mark, get?_mark]
    exact h.indexed text j
  hashed j x hx := h.hashed j x (by rwa [get?_mark] at hx)

/-! Sweeping. -/

private theorem getElem?_foldl_erase (texts : List (Nat × Cell Interned))
    (index : Std.HashMap String Nat) (text : String) :
    (texts.foldl (fun index r => index.erase r.2.value.text) index)[text]? =
      if ∃ r ∈ texts, r.2.value.text = text then none else index[text]? := by
  induction texts generalizing index with
  | nil => simp
  | cons r rest ih =>
    simp only [List.foldl_cons, ih, Std.HashMap.getElem?_erase, List.mem_cons, exists_eq_or_imp]
    by_cases hr : r.2.value.text = text <;> by_cases hrest : ∃ r ∈ rest, r.2.value.text = text <;>
      simp [hr, hrest]

/-- A sweep forgets exactly the texts it releases. -/
theorem lookup?_sweep (p : Pool) (text : String) :
    p.sweep.2.lookup? text =
      if ∃ r ∈ p.arena.unreached, r.2.value.text = text then none else p.lookup? text :=
  getElem?_foldl_erase p.arena.unreached p.index text

theorem get?_sweep {p : Pool} {i : Nat} {x : Interned} :
    p.sweep.2.arena.get? i = some x ↔ p.arena.get? i = some x ∧ p.isMarked i = true :=
  Arena.get?_sweep

theorem WellFormed.sweep {p : Pool} (h : p.WellFormed) : p.sweep.2.WellFormed where
  arena := h.arena.sweep
  indexed text i := by
    rw [lookup?_sweep]
    constructor
    · intro hlookup
      split at hlookup
      · simp at hlookup
      · rename_i hkept
        obtain ⟨x, hx, htext⟩ := (h.indexed text i).mp hlookup
        refine ⟨x, get?_sweep.mpr ⟨hx, ?_⟩, htext⟩
        by_contra hwhite
        obtain ⟨c, hc, hvalue⟩ := Arena.get?_eq_some.mp hx
        apply hkept
        refine ⟨(i, c), Arena.mem_unreached.mpr ⟨hc, ?_⟩, by rw [hvalue, htext]⟩
        simpa [isMarked, Arena.isMarked, hc] using hwhite
    · rintro ⟨x, hx, htext⟩
      obtain ⟨hget, hmarked⟩ := get?_sweep.mp hx
      rw [if_neg, h.indexed]
      · exact ⟨x, hget, htext⟩
      · rintro ⟨⟨j, c⟩, hmem, hctext⟩
        obtain ⟨hc, hwhite⟩ := Arena.mem_unreached.mp hmem
        have hj : p.arena.get? j = some c.value := Arena.get?_eq_some.mpr ⟨c, hc, rfl⟩
        cases h.slot_unique hget hj (htext.trans hctext.symm)
        simp [isMarked, Arena.isMarked, hc, hwhite] at hmarked
  hashed i x hx := h.hashed i x (get?_sweep.mp hx).1

end ScriptMachine.Pool
