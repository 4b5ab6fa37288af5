import ScriptMachine.Slice

/-!
Positions and slices of sequences. A read takes the positions from minus the length up to the
length, a write that at the length too, and nothing that is added on the way leaves the words. A
slice is what lies between its two cuts; two slices that meet in one cut make up the whole.
-/

namespace ScriptMachine

/-! Words. -/

namespace Binary64

/-- An integer that a signed 64-bit word can hold. -/
def IsWord (n : Int) : Prop := minWord ≤ n ∧ n ≤ maxWord

theorem isWord_clampWord (n : Int) : IsWord (clampWord n) := by
  have hle : minWord ≤ maxWord := by decide
  unfold IsWord clampWord
  omega

theorem isWord_toWord (x : Float) : IsWord (toWord x) := by
  have hzero : IsWord 0 := by unfold IsWord; decide
  have hmin : IsWord minWord := by unfold IsWord; decide
  have hmax : IsWord maxWord := by unfold IsWord; decide
  unfold toWord
  split
  · exact hzero
  · exact hmin
  · exact hmax
  · exact isWord_clampWord _
  · exact isWord_clampWord _

/-- A negative word added to a length is a word. -/
theorem IsWord.add_length {word : Int} {length : Nat} (hword : IsWord word)
    (hlength : IsWord length) (hnegative : word < 0) : IsWord (length + word) := by
  obtain ⟨hleast, -⟩ := hword
  obtain ⟨-, hgreatest⟩ := hlength
  unfold IsWord
  omega

end Binary64

namespace Slice

/-! Positions. -/

/-- Where a position stands, counted from the start. -/
def index (word : Int) (length : Nat) : Int := if word < 0 then length + word else word

theorem resolveWord?_eq (word : Int) (length : Nat) :
    resolveWord? word length =
      if 0 ≤ index word length ∧ index word length < length then some (index word length).toNat
      else none :=
  rfl

theorem resolveWord?_eq_none_iff {word : Int} {length : Nat} :
    resolveWord? word length = none ↔ length ≤ word ∨ word < -length := by
  rw [resolveWord?_eq, ite_eq_right_iff, index]
  simp only [reduceCtorEq, imp_false]
  split <;> omega

theorem resolveWord?_eq_some {word : Int} {length i : Nat}
    (h : resolveWord? word length = some i) : (i : Int) = index word length ∧ i < length := by
  rw [resolveWord?_eq, Option.ite_none_right_eq_some, Option.some.injEq] at h
  omega

theorem writeIndex?_eq_none_iff {x : Float} {length : Nat} :
    writeIndex? x length = none ↔
      length < Binary64.toWord x ∨ Binary64.toWord x < -length := by
  unfold writeIndex? resolve?
  split
  · simp only [reduceCtorEq, false_iff]
    omega
  · rw [resolveWord?_eq_none_iff]
    omega

theorem writeIndex?_eq_some {x : Float} {length slot : Nat}
    (h : writeIndex? x length = some slot) :
    (slot : Int) = index (Binary64.toWord x) length ∧ slot ≤ length ∧
      (slot = length ↔ Binary64.toWord x = length) := by
  unfold writeIndex? resolve? at h
  split at h
  · next happend =>
    have hslot : length = slot := Option.some.inj h
    unfold index
    split <;> omega
  · next hinside =>
    obtain ⟨hslot, hlt⟩ := resolveWord?_eq_some h
    omega

/-- A position that took a write leads to what was written, also after an append. -/
theorem resolve?_of_writeIndex? {x : Float} {length slot : Nat}
    (h : writeIndex? x length = some slot) :
    resolve? x (if slot = length then length + 1 else length) = some slot := by
  unfold writeIndex? at h
  split at h
  · next happend =>
    obtain rfl : length = slot := Option.some.inj h
    have hindex : index length (length + 1) = length := if_neg (by omega)
    rw [if_pos rfl, resolve?, happend, resolveWord?_eq, hindex, if_pos (by omega)]
    rfl
  · next hinside =>
    obtain ⟨-, hlt⟩ := resolveWord?_eq_some h
    rw [if_neg (by omega)]
    exact h

/-! Slices. -/

/-- Where a slice begins or ends: at a bound cut to the sequence, or where it does without one. -/
def cut (bound : Option Int) (unbounded length : Nat) : Nat :=
  match bound with
  | none => unbounded
  | some word => (max 0 (min (length : Int) (index word length))).toNat

theorem clampBound_eq_cut (word : Int) (unbounded length : Nat) :
    clampBound word length = cut (some word) unbounded length := by
  unfold clampBound cut index
  dsimp only
  split <;> omega

theorem cut_le {bound : Option Int} {unbounded length : Nat} (hunbounded : unbounded ≤ length) :
    cut bound unbounded length ≤ length := by
  unfold cut
  split
  · exact hunbounded
  · omega

theorem clampBound_getD (bound : Option Int) {unbounded length : Nat}
    (hunbounded : unbounded ≤ length) :
    clampBound (bound.getD unbounded) length = cut bound unbounded length := by
  cases bound with
  | none =>
    have hnatural : ¬ ((unbounded : Int) < 0) := by omega
    rw [Option.getD_none, clampBound, if_neg hnatural, Int.toNat_natCast]
    exact Nat.min_eq_left hunbounded
  | some word => exact clampBound_eq_cut word unbounded length

/-- Where a slice begins. -/
def first (lower : Option Int) (length : Nat) : Nat := cut lower 0 length

/-- Where a slice ends. -/
def last (upper : Option Int) (length : Nat) : Nat := cut upper length length

theorem bounds_eq (lower upper : Option Int) (length : Nat) :
    bounds lower upper length =
      if last upper length ≤ first lower length then (0, 0)
      else (first lower length, last upper length) := by
  have hlow : clampBound (lower.getD 0) length = first lower length :=
    clampBound_getD lower (Nat.zero_le length)
  have hhigh : clampBound (upper.getD length) length = last upper length :=
    clampBound_getD upper (Nat.le_refl length)
  unfold bounds
  rw [hlow, hhigh]

variable {α : Type}

/-- The elements from the first cut to the last, in their order; none if the last is not after the
first. -/
def between (lower upper : Option Int) (xs : List α) : List α :=
  (xs.drop (first lower xs.length)).take (last upper xs.length - first lower xs.length)

theorem length_between (lower upper : Option Int) (xs : List α) :
    (between lower upper xs).length = last upper xs.length - first lower xs.length := by
  have hlast : last upper xs.length ≤ xs.length := cut_le (Nat.le_refl _)
  unfold between
  rw [List.length_take, List.length_drop]
  omega

/-- A slice has the elements between its cuts. -/
theorem ofList_eq_between (lower upper : Option Int) (xs : List α) :
    ofList lower upper xs = between lower upper xs := by
  have hofList : ofList lower upper xs =
      (xs.drop (bounds lower upper xs.length).1).take
        ((bounds lower upper xs.length).2 - (bounds lower upper xs.length).1) := rfl
  rw [hofList, bounds_eq]
  split
  · next hempty =>
    rw [between, Nat.sub_eq_zero_of_le hempty, List.take_zero]
    exact List.take_zero
  · rfl

example : ofList (some (-2)) (some 9) ['a', 'b', 'c'] = ['b', 'c'] := by decide

theorem toList_ofArray (lower upper : Option Int) (xs : Array α) :
    (ofArray lower upper xs).toList = ofList lower upper xs.toList := by
  unfold ofArray ofList
  dsimp only
  rw [Array.toList_extract, List.extract_eq_take_drop, Array.length_toList]

/-- The slice up to a bound and the slice from it on make up the whole. -/
theorem between_append_between (bound : Int) (xs : List α) :
    between none (some bound) xs ++ between (some bound) none xs = xs := by
  have hmeet : last (some bound) xs.length = first (some bound) xs.length := rfl
  have hstart : first none xs.length = 0 := rfl
  have hend : last none xs.length = xs.length := rfl
  unfold between
  rw [hmeet, hstart, hend, Nat.sub_zero, List.drop_zero,
    List.take_of_length_le (Nat.le_of_eq List.length_drop), List.take_append_drop]

end Slice

end ScriptMachine
