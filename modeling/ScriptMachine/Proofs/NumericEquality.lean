import ScriptMachine.Hash
import Mathlib.Algebra.Group.Nat.Defs
import Mathlib.Tactic.Common

/-!
Equality of doubles, read off their bits. Sign, exponent and mantissa determine the bit pattern,
and each pattern other than a NaN stands for one number. So numbers compare as equal exactly if
both are zeros or they have the same bits, and equal numbers have equal hashes.
-/

namespace ScriptMachine.NumericEquality

open Float.Model (Format UnpackedFloat)
open Float.Model.UnpackedFloat

abbrev Bits := BitVec Format.binary64.numBits

theorem toNat_unpackSign (a : Bits) : (unpackSign a).toNat = a.toNat / 2 ^ 63 % 2 := by
  change (BitVec.extractLsb 63 63 a).toNat = _
  rw [BitVec.extractLsb_toNat, Nat.shiftRight_eq_div_pow]

theorem toNat_unpackExponent (a : Bits) :
    (unpackExponent a).toNat = a.toNat / 2 ^ 52 % 2 ^ 11 := by
  change (BitVec.extractLsb 62 52 a).toNat = _
  rw [BitVec.extractLsb_toNat, Nat.shiftRight_eq_div_pow]

theorem toNat_unpackMantissa (a : Bits) : (unpackMantissa a).toNat = a.toNat % 2 ^ 52 := by
  change (BitVec.extractLsb 51 0 a).toNat = _
  rw [BitVec.extractLsb_toNat, Nat.shiftRight_zero]

/-- Sign, exponent and mantissa make up all bits of a double. -/
theorem eq_of_fields_eq (a b : Bits)
    (hs : unpackSign a = unpackSign b) (he : unpackExponent a = unpackExponent b)
    (hm : unpackMantissa a = unpackMantissa b) : a = b := by
  have ha : a.toNat < 2 ^ 64 := a.isLt
  have hb : b.toNat < 2 ^ 64 := b.isLt
  have hs' := congrArg BitVec.toNat hs
  have he' := congrArg BitVec.toNat he
  have hm' := congrArg BitVec.toNat hm
  rw [toNat_unpackSign, toNat_unpackSign] at hs'
  rw [toNat_unpackExponent, toNat_unpackExponent] at he'
  rw [toNat_unpackMantissa, toNat_unpackMantissa] at hm'
  apply BitVec.eq_of_toNat_eq
  omega

theorem ofBitVec_inj {a b : BitVec 1} (h : Sign.ofBitVec a = Sign.ofBitVec b) : a = b := by
  have ha := a.isLt
  have hb := b.isLt
  unfold Sign.ofBitVec at h
  apply BitVec.eq_of_toNat_eq
  split at h <;> split at h <;> simp_all [← BitVec.toNat_inj]
  omega

theorem toNat_one_append (m : BitVec 52) : (1#1 ++ m).toNat = 2 ^ 52 + m.toNat := by
  rw [BitVec.toNat_append, ← Nat.shiftLeft_add_eq_or_of_lt m.isLt]
  rfl

def signOf (a : Bits) : Sign := Sign.ofBitVec (unpackSign a)

/-- What a bit pattern stands for, by its exponent and mantissa. -/
inductive Denotes (a : Bits) : UnpackedFloat → Prop
  | infinity (he : unpackExponent a = -1#_) (hm : unpackMantissa a = 0#_) :
      Denotes a (.infinity (signOf a))
  | notANumber : Denotes a .notANumber
  | zero (he : unpackExponent a = 0#_) (hm : unpackMantissa a = 0#_) :
      Denotes a (.zero (signOf a))
  | subnormal (he : unpackExponent a = 0#_) (hpos : 0 < (unpackMantissa a).toNat) :
      Denotes a (.finite (signOf a) (unpackMantissa a).toNat (-1074) hpos)
  | normal (he : unpackExponent a ≠ 0#_) (hpos : 0 < 2 ^ 52 + (unpackMantissa a).toNat) :
      Denotes a (.finite (signOf a) (2 ^ 52 + (unpackMantissa a).toNat)
        ((unpackExponent a).toNat - 1075) hpos)

theorem denotes_normal {a : Bits} (he : unpackExponent a ≠ 0#_) {m : Nat} {hpos : 0 < m}
    (hm : m = 2 ^ 52 + (unpackMantissa a).toNat) :
    Denotes a (.finite (signOf a) m ((unpackExponent a).toNat - 1075) hpos) := by
  subst hm
  exact .normal he hpos

theorem denotes_unpack (a : Bits) : Denotes a (unpack Format.binary64 a) := by
  unfold unpack
  dsimp only
  by_cases hfull : unpackExponent a = -1#_
  · rw [if_pos hfull]
    by_cases hm : unpackMantissa a = 0#_
    · rw [if_pos hm]
      exact .infinity hfull hm
    · rw [if_neg hm]
      exact .notANumber
  · rw [if_neg hfull]
    by_cases he : unpackExponent a = 0#_
    · rw [if_pos he]
      by_cases hm : unpackMantissa a = 0#_
      · rw [dif_pos hm]
        exact .zero he hm
      · rw [dif_neg hm, he]
        exact .subnormal he (by simpa [BitVec.toNat_pos, BitVec.pos_iff_ne_zero] using hm)
    · rw [if_neg he]
      exact denotes_normal he (toNat_one_append _)

theorem fields_of_infinity {a : Bits} {s : Sign} (h : Denotes a (.infinity s)) :
    signOf a = s ∧ unpackExponent a = -1#_ ∧ unpackMantissa a = 0#_ := by
  cases h
  exact ⟨rfl, ‹_›, ‹_›⟩

theorem fields_of_zero {a : Bits} {s : Sign} (h : Denotes a (.zero s)) :
    signOf a = s ∧ unpackExponent a = 0#_ ∧ unpackMantissa a = 0#_ := by
  cases h
  exact ⟨rfl, ‹_›, ‹_›⟩

theorem fields_of_finite {a : Bits} {s : Sign} {m : Nat} {e : Int} {hpos : 0 < m}
    (h : Denotes a (.finite s m e hpos)) :
    signOf a = s ∧
      (((unpackExponent a).toNat = 0 ∧ (unpackMantissa a).toNat = m ∧ e = -1074) ∨
        (0 < (unpackExponent a).toNat ∧ 2 ^ 52 + (unpackMantissa a).toNat = m ∧
          e = (unpackExponent a).toNat - 1075)) := by
  cases h with
  | subnormal he => exact ⟨rfl, Or.inl ⟨by rw [he]; rfl, rfl, rfl⟩⟩
  | normal he =>
    have hexp : (unpackExponent a).toNat ≠ 0 := fun h0 => he (BitVec.eq_of_toNat_eq h0)
    exact ⟨rfl, Or.inr ⟨by omega, rfl, rfl⟩⟩

/-- Two bit patterns of one number other than NaN are the same pattern. -/
theorem eq_of_denotes {a b : Bits} {u : UnpackedFloat} (ha : Denotes a u) (hb : Denotes b u)
    (hnan : u ≠ .notANumber) : a = b := by
  cases u with
  | notANumber => exact absurd rfl hnan
  | infinity s =>
    obtain ⟨hsa, hea, hma⟩ := fields_of_infinity ha
    obtain ⟨hsb, heb, hmb⟩ := fields_of_infinity hb
    exact eq_of_fields_eq a b (ofBitVec_inj (hsa.trans hsb.symm)) (hea.trans heb.symm)
      (hma.trans hmb.symm)
  | zero s =>
    obtain ⟨hsa, hea, hma⟩ := fields_of_zero ha
    obtain ⟨hsb, heb, hmb⟩ := fields_of_zero hb
    exact eq_of_fields_eq a b (ofBitVec_inj (hsa.trans hsb.symm)) (hea.trans heb.symm)
      (hma.trans hmb.symm)
  | finite s m e hpos =>
    obtain ⟨hsa, hfa⟩ := fields_of_finite ha
    obtain ⟨hsb, hfb⟩ := fields_of_finite hb
    have hma : (unpackMantissa a).toNat < 2 ^ 52 := (unpackMantissa a).isLt
    have hmb : (unpackMantissa b).toNat < 2 ^ 52 := (unpackMantissa b).isLt
    apply eq_of_fields_eq a b (ofBitVec_inj (hsa.trans hsb.symm))
    · apply BitVec.eq_of_toNat_eq
      omega
    · apply BitVec.eq_of_toNat_eq
      omega

theorem compare_self {u : UnpackedFloat} (hnan : u ≠ .notANumber) : u.compare u = some .eq := by
  cases u with
  | notANumber => exact absurd rfl hnan
  | infinity s => cases s <;> rfl
  | zero => rfl
  | finite s m e =>
    have hsame : (Ord.compare e e).then (Ord.compare m m) = .eq := by simp
    cases s with
    | positive => exact congrArg some hsame
    | negative => exact congrArg (fun o => some o.swap) hsame

theorem eq_of_compare_finite {s t : Sign} {m n : Nat} {e f : Int} {hm : 0 < m} {hn : 0 < n}
    (h : (UnpackedFloat.finite s m e hm).compare (.finite t n f hn) = some .eq) :
    UnpackedFloat.finite s m e hm = .finite t n f hn := by
  have hfields (hsame : (Ord.compare e f).then (Ord.compare m n) = .eq) : e = f ∧ m = n := by
    simpa [Ordering.then_eq_eq] using hsame
  cases s <;> cases t
  · obtain ⟨rfl, rfl⟩ := hfields (Ordering.swap_eq_eq.1 (Option.some.inj h))
    rfl
  · cases h
  · cases h
  · obtain ⟨rfl, rfl⟩ := hfields (Option.some.inj h)
    rfl

/-- Numbers compare as equal if both are zeros, or if they are one number. -/
theorem compare_eq_iff (u v : UnpackedFloat) :
    u.compare v = some .eq ↔
      (∃ s t, u = .zero s ∧ v = .zero t) ∨ (u = v ∧ u ≠ .notANumber) := by
  constructor
  · intro h
    cases u with
    | notANumber => cases h
    | infinity s =>
      cases v with
      | infinity t =>
        cases s <;> cases t
        · exact Or.inr ⟨rfl, UnpackedFloat.noConfusion⟩
        · cases h
        · cases h
        · exact Or.inr ⟨rfl, UnpackedFloat.noConfusion⟩
      | _ => cases s <;> cases h
    | zero s =>
      cases v with
      | zero t => exact Or.inl ⟨s, t, rfl, rfl⟩
      | notANumber => cases h
      | infinity t => cases t <;> cases h
      | finite t => cases t <;> cases h
    | finite s m e hm =>
      cases v with
      | finite t n f hn => exact Or.inr ⟨eq_of_compare_finite h, UnpackedFloat.noConfusion⟩
      | infinity t => cases t <;> cases h
      | notANumber => cases h
      | zero t => cases s <;> cases h
  · rintro (⟨s, t, rfl, rfl⟩ | ⟨rfl, hnan⟩)
    · rfl
    · exact compare_self hnan

theorem unpack_zero : (0 : Float).toModel.unpack = .zero .positive := by rfl

theorem beq_iff_compare (x y : Float) :
    (x == y) = true ↔ x.toModel.unpack.compare y.toModel.unpack = some .eq := by
  change (x.toModel.unpack.compare y.toModel.unpack == some .eq) = true ↔ _
  exact beq_iff_eq

theorem isNaN_iff (x : Float) : x.isNaN = true ↔ x.toModel.unpack = .notANumber := by
  change x.toModel.unpack.isNaN = true ↔ _
  cases x.toModel.unpack with
  | notANumber => exact iff_of_true rfl rfl
  | infinity => exact iff_of_false Bool.false_ne_true UnpackedFloat.noConfusion
  | zero => exact iff_of_false Bool.false_ne_true UnpackedFloat.noConfusion
  | finite => exact iff_of_false Bool.false_ne_true UnpackedFloat.noConfusion

theorem beq_zero_iff (x : Float) : (x == 0) = true ↔ ∃ s, x.toModel.unpack = .zero s := by
  rw [beq_iff_compare, compare_eq_iff, unpack_zero]
  constructor
  · rintro (⟨s, _, hs, _⟩ | ⟨hs, _⟩)
    · exact ⟨s, hs⟩
    · exact ⟨_, hs⟩
  · rintro ⟨s, hs⟩
    exact Or.inl ⟨s, _, hs, rfl⟩

theorem eq_of_unpack_eq {x y : Float} (h : x.toModel.unpack = y.toModel.unpack)
    (hnan : x.toModel.unpack ≠ .notANumber) : x = y := by
  obtain ⟨⟨⟨bits⟩, hx⟩⟩ := x
  obtain ⟨⟨⟨bits'⟩, hy⟩⟩ := y
  have hdenotes := denotes_unpack bits'
  rw [show unpack Format.binary64 bits' = unpack Format.binary64 bits from h.symm] at hdenotes
  cases eq_of_denotes (denotes_unpack bits) hdenotes hnan
  rfl

/-- Numbers are equal if both are zeros, or if they are one number other than NaN. -/
theorem beq_iff (x y : Float) :
    (x == y) = true ↔ ((x == 0) = true ∧ (y == 0) = true) ∨ (x = y ∧ x.isNaN = false) := by
  rw [← Bool.not_eq_true, isNaN_iff, beq_zero_iff, beq_zero_iff, beq_iff_compare, compare_eq_iff]
  constructor
  · rintro (⟨s, t, hs, ht⟩ | ⟨heq, hnan⟩)
    · exact Or.inl ⟨⟨s, hs⟩, ⟨t, ht⟩⟩
    · exact Or.inr ⟨eq_of_unpack_eq heq hnan, hnan⟩
  · rintro (⟨⟨s, hs⟩, ⟨t, ht⟩⟩ | ⟨rfl, hnan⟩)
    · exact Or.inl ⟨s, t, hs, ht⟩
    · exact Or.inr ⟨rfl, hnan⟩

/-- The number that stands for all numbers equal to x: one zero for both. -/
def representative (x : Float) : Float := if x == 0 then 0 else x

theorem beq_iff_representative_eq {x y : Float} (hx : x.isNaN = false) :
    (x == y) = true ↔ representative x = representative y := by
  rw [beq_iff]
  unfold representative
  by_cases hx0 : (x == 0) = true <;> by_cases hy0 : (y == 0) = true
  · simp [hx0, hy0]
  · simp only [hx0, hy0, if_true, if_false, and_false, false_or, Bool.false_eq_true]
    constructor
    · rintro ⟨rfl, _⟩
      exact absurd hx0 hy0
    · rintro rfl
      exact absurd (by decide) hy0
  · simp only [hx0, hy0, if_true, if_false, false_and, false_or, Bool.false_eq_true]
    constructor
    · rintro ⟨rfl, _⟩
      exact absurd hy0 hx0
    · rintro rfl
      exact absurd (by decide) hx0
  · simp only [hx0, hy0, hx, if_false, false_and, false_or, and_true, Bool.false_eq_true]

theorem hash_eq_of_beq {x y : Float} (h : (x == y) = true) : Hash.number x = Hash.number y := by
  rcases (beq_iff x y).mp h with ⟨hx, hy⟩ | ⟨rfl, _⟩
  · simp only [Hash.number, hx, hy, if_true]
  · rfl

end ScriptMachine.NumericEquality
