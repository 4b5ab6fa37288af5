import ScriptMachine.Proofs.NumericEquality
import ScriptMachine.Proofs.PoolTexts

/-!
Key equality. A pool gives every key a class: a text its contents, a number itself with one zero
for both, and every other value itself. On keys other than NaN, two keys are the same exactly if
they have one class, so being the same is an equivalence there, and the same keys hash alike.
-/

namespace ScriptMachine

/-- What remains of a key when equal keys are not told apart. -/
inductive Key where
  | nil
  | bool (b : Bool)
  | number (x : Float)
  | object (index : Nat)
  | text (contents : String)
  /-- A reference to a slot of the pool that holds nothing. -/
  | vacant (index : Nat)
deriving DecidableEq

/-- Whether a value is the number that differs from itself. -/
def Value.isNaN : Value → Bool
  | .number x => x.isNaN
  | _ => false

namespace Pool

/-- The class of a key. -/
def keyOf (p : Pool) : Value → Key
  | .nil => .nil
  | .bool b => .bool b
  | .number x => .number (NumericEquality.representative x)
  | .ref (.object i) => .object i
  | .ref (.text i) =>
    match p.arena.get? i with
    | some x => .text x.text
    | none => .vacant i

/-- A text key is held by the pool; every other key needs nothing of it. -/
def Holds (p : Pool) (key : Value) : Prop :=
  ∀ i, key = .ref (.text i) → ∃ x, p.arena.get? i = some x

theorem WellFormed.hash_eq {p : Pool} (h : p.WellFormed) {r : Ref} {x : Interned}
    (hx : p.get? r = some x) : x.hash = Hash.text x.text := by
  cases r with
  | object i => cases hx
  | text i => exact h.hashed i x hx

theorem keyOf_text {p : Pool} {i : Nat} {x : Interned} (h : p.arena.get? i = some x) :
    p.keyOf (.ref (.text i)) = .text x.text := by
  simp [keyOf, h]

theorem keyOf_vacant {p : Pool} {i : Nat} (h : p.arena.get? i = none) :
    p.keyOf (.ref (.text i)) = .vacant i := by
  simp [keyOf, h]

theorem keyOf_eq_text_iff {p : Pool} {a : Value} {text : String} :
    p.keyOf a = .text text ↔ (p.textOf? a).map Interned.text = some text := by
  rcases a with _ | _ | _ | (i | i)
  case ref.text =>
    cases hx : p.arena.get? i with
    | none => simp [keyOf_vacant hx, textOf?, get?, hx]
    | some x => simp [keyOf_text hx, textOf?, get?, hx]
  all_goals simp [keyOf, textOf?, get?]

theorem sameKey_ref_iff (p : Pool) (r s : Ref) :
    p.sameKey (.ref r) (.ref s) = true ↔
      r = s ∨ ∃ x y, p.get? r = some x ∧ p.get? s = some y ∧ x.hash = y.hash ∧ x.text = y.text := by
  unfold sameKey
  by_cases hrs : r = s
  · simp [hrs]
  · cases hr : p.get? r <;> cases hs : p.get? s <;> simp [hrs, hr, hs]

/-- Two text keys are the same exactly if their contents are. -/
theorem WellFormed.sameKey_text_iff {p : Pool} (h : p.WellFormed) (i j : Nat) :
    p.sameKey (.ref (.text i)) (.ref (.text j)) = true ↔
      p.keyOf (.ref (.text i)) = p.keyOf (.ref (.text j)) := by
  rw [sameKey_ref_iff]
  constructor
  · rintro (heq | ⟨x, y, hx, hy, _, htext⟩)
    · rw [heq]
    · rw [keyOf_text hx, keyOf_text hy, htext]
  · intro hkey
    cases hx : p.arena.get? i with
    | none =>
      cases hy : p.arena.get? j with
      | none =>
        rw [keyOf_vacant hx, keyOf_vacant hy] at hkey
        exact Or.inl (by rw [Key.vacant.inj hkey])
      | some y => simp [keyOf_vacant hx, keyOf_text hy] at hkey
    | some x =>
      cases hy : p.arena.get? j with
      | none => simp [keyOf_text hx, keyOf_vacant hy] at hkey
      | some y =>
        rw [keyOf_text hx, keyOf_text hy] at hkey
        have htext := Key.text.inj hkey
        exact Or.inr ⟨x, y, hx, hy, by rw [h.hashed i x hx, h.hashed j y hy, htext], htext⟩

theorem keyOf_text_ne {p : Pool} (i : Nat) {k : Key}
    (htext : ∀ s, k ≠ .text s) (hvacant : ∀ j, k ≠ .vacant j) : p.keyOf (.ref (.text i)) ≠ k := by
  cases hx : p.arena.get? i with
  | none => exact keyOf_vacant hx ▸ (hvacant i).symm
  | some x => exact keyOf_text hx ▸ (htext x.text).symm

/-- A text key shares its class with no other kind of key. -/
theorem keyOf_text_ne_keyOf {p : Pool} (i : Nat) {b : Value} (hb : ∀ j, b ≠ .ref (.text j)) :
    p.keyOf (.ref (.text i)) ≠ p.keyOf b := by
  apply keyOf_text_ne
  all_goals
    intro c hc
    rcases b with _ | _ | _ | (_ | j)
    case ref.text => exact hb j rfl
    all_goals simp [keyOf] at hc

/-- On keys other than NaN, being the same key is having one class. -/
theorem WellFormed.sameKey_iff {p : Pool} (h : p.WellFormed) {a : Value} (b : Value)
    (ha : a.isNaN = false) : p.sameKey a b = true ↔ p.keyOf a = p.keyOf b := by
  cases a with
  | nil =>
    rcases b with _ | _ | _ | (_ | j)
    case ref.text => simpa [sameKey, Value.equals] using (keyOf_text_ne_keyOf j (by simp)).symm
    all_goals simp [sameKey, Value.equals, keyOf]
  | bool a =>
    rcases b with _ | _ | _ | (_ | j)
    case ref.text => simpa [sameKey, Value.equals] using (keyOf_text_ne_keyOf j (by simp)).symm
    all_goals simp [sameKey, Value.equals, keyOf]
  | number x =>
    rcases b with _ | _ | y | (_ | j)
    case number =>
      simpa [sameKey, Value.equals, keyOf] using NumericEquality.beq_iff_representative_eq ha
    case ref.text => simpa [sameKey, Value.equals] using (keyOf_text_ne_keyOf j (by simp)).symm
    all_goals simp [sameKey, Value.equals, keyOf]
  | ref r =>
    cases r with
    | object i =>
      rcases b with _ | _ | _ | (j | j)
      case ref.object => simp [sameKey_ref_iff, keyOf, get?]
      case ref.text =>
        rw [sameKey_ref_iff]
        simpa [get?] using (keyOf_text_ne_keyOf j (by simp)).symm
      all_goals simp [sameKey, Value.equals, keyOf]
    | text i =>
      rcases b with _ | _ | _ | (j | j)
      case ref.text => exact h.sameKey_text_iff i j
      case ref.object =>
        rw [sameKey_ref_iff]
        simpa [get?] using keyOf_text_ne_keyOf i (by simp)
      all_goals simpa [sameKey, Value.equals] using keyOf_text_ne_keyOf i (by simp)

/-- One class is equal contents for texts and equality for everything else. -/
theorem WellFormed.keyOf_eq_iff {p : Pool} (h : p.WellFormed) {a : Value} (b : Value)
    (ha : a.isNaN = false) : p.keyOf a = p.keyOf b ↔
      (∃ x y, p.textOf? a = some x ∧ p.textOf? b = some y ∧ x.text = y.text) ∨
        a.equals b = true := by
  rw [← h.sameKey_iff b ha]
  rcases a with _ | _ | _ | r <;> rcases b with _ | _ | _ | s
  case ref.ref =>
    rw [sameKey_ref_iff, or_comm]
    apply or_congr
    · constructor
      · rintro ⟨x, y, hx, hy, -, htext⟩
        exact ⟨x, y, hx, hy, htext⟩
      · rintro ⟨x, y, hx, hy, htext⟩
        exact ⟨x, y, hx, hy, by rw [h.hash_eq hx, h.hash_eq hy, htext], htext⟩
    · simp [Value.equals]
  all_goals simp [sameKey, textOf?]

/-- The same keys hash alike. -/
theorem hashKey_eq_of_sameKey (p : Pool) {a b : Value} (h : p.sameKey a b = true) :
    p.hashKey a = p.hashKey b := by
  rcases a with _ | _ | x | r <;> rcases b with _ | _ | y | s
  case ref.ref =>
    rcases (sameKey_ref_iff p r s).1 h with heq | ⟨x, y, hx, hy, hhash, _⟩
    · rw [heq]
    · simpa [hashKey, textOf?, hx, hy] using hhash
  case number.number =>
    have hxy : (x == y) = true := by simpa [sameKey, Value.equals] using h
    simpa [hashKey, textOf?, Value.identityHash] using NumericEquality.hash_eq_of_beq hxy
  all_goals simp_all [sameKey, Value.equals]

end Pool

end ScriptMachine
