import Mathlib.Algebra.Group.Nat.Defs
import VertexFetch.Single

namespace VertexFetch.Single

theorem toNat_magnitude (w : UInt32) :
    (magnitude w).toNat = w.toNat % 2 ^ 31 := by
  rw [magnitude, UInt32.toNat_and]
  exact Nat.and_two_pow_sub_one_eq_mod w.toNat 31

theorem isNegative_iff {w : UInt32} :
    isNegative w = true ↔ 2 ^ 31 ≤ w.toNat := by
  simp [isNegative, UInt32.le_iff_toNat_le]

theorem toNat_withSign (negative : Bool) {m : UInt32}
    (small : m.toNat < 2 ^ 31) :
    (withSign negative m).toNat =
      (if negative then 2 ^ 31 else 0) + m.toNat := by
  cases negative with
  | false => simp [withSign]
  | true =>
      have joined := Nat.two_pow_add_eq_or_of_lt small 1
      rw [Nat.mul_one] at joined
      simp only [withSign, if_true, UInt32.toNat_or]
      rw [joined, Nat.or_comm]
      rfl

theorem withSign_magnitude (w : UInt32) :
    withSign (isNegative w) (magnitude w) = w := by
  apply UInt32.toNat_inj.mp
  have bounded := w.toNat_lt
  rw [toNat_withSign _ (by rw [toNat_magnitude]; omega), toNat_magnitude]
  by_cases negative : isNegative w = true
  · have large := isNegative_iff.mp negative
    rw [if_pos negative]
    omega
  · have small : ¬ 2 ^ 31 ≤ w.toNat :=
      fun large => negative (isNegative_iff.mpr large)
    rw [if_neg negative]
    omega

theorem magnitude_withSign (negative : Bool) {m : UInt32}
    (small : m.toNat < 2 ^ 31) : magnitude (withSign negative m) = m := by
  apply UInt32.toNat_inj.mp
  rw [toNat_magnitude, toNat_withSign _ small]
  split <;> omega

theorem mul_comm (a b : UInt32) : mul a b = mul b a := by
  unfold mul
  rw [Bool.xor_comm (isNegative a), Nat.mul_comm (significand a),
    Int.add_comm (exponent a)]
  simp only [Or.comm]

theorem shiftRound_shifted (m s : Nat) : shiftRound (m * 2 ^ s) s = m := by
  have positive : 0 < 2 ^ s := Nat.two_pow_pos s
  simp only [shiftRound, Nat.one_shiftLeft, Nat.mul_div_cancel m positive,
    Nat.mul_mod_left]
  rw [if_neg]
  omega

theorem isNaN_eq_false {w : UInt32} :
    isNaN w = false ↔ (magnitude w).toNat ≤ infinity.toNat := by
  simp [isNaN, UInt32.lt_iff_toNat_lt]

private theorem join_fields {f q m : Nat} (normal : f ≠ 0)
    (split : m = f * 2 ^ 23 + q) (finite : m < 255 * 2 ^ 23) :
    min ((f - 1) * 2 ^ 23 + (q + 2 ^ 23)) (255 * 2 ^ 23) = m := by
  omega

theorem round_significand {w : UInt32}
    (finite : (magnitude w).toNat < infinity.toNat) (negative : Bool) :
    round negative (significand w * 2 ^ 23) (exponent w - 23) =
      withSign negative (magnitude w) := by
  have split : (magnitude w).toNat =
      exponentField w * 2 ^ 23 + (magnitude w).toNat % 2 ^ 23 := by
    rw [exponentField, Nat.shiftRight_eq_div_pow]
    omega
  have fractionLt : (magnitude w).toNat % 2 ^ 23 < 2 ^ 23 :=
    Nat.mod_lt _ (by decide)
  have same : UInt32.ofNat (magnitude w).toNat = magnitude w :=
    UInt32.ofNat_toNat
  have bound : infinity.toNat = 255 * 2 ^ 23 := by decide
  generalize field : exponentField w = f at split
  generalize fraction : (magnitude w).toNat % 2 ^ 23 = q at split fractionLt
  have leading : leadingBit = 2 ^ 23 := rfl
  by_cases subnormal : f = 0
  · have significandEq : significand w = q := by
      simp only [significand, field, subnormal, if_true, leading, fraction]
    have exponentEq : exponent w = -149 := by simp [exponent, field, subnormal]
    rw [significandEq, exponentEq]
    by_cases zero : q = 0
    · have none : magnitude w = 0 := by
        apply UInt32.toNat_inj.mp
        rw [split, subnormal, zero]
        rfl
      simp [round, zero, none]
    · have nonzero : q * 2 ^ 23 ≠ 0 := by omega
      have small : (q * 2 ^ 23).log2 < 46 := by
        rw [Nat.log2_lt nonzero]
        omega
      have unit : max ((-149 : Int) - 23 + ((q * 2 ^ 23).log2 : Int) - 23)
          (-149) = -149 := by
        generalize (q * 2 ^ 23).log2 = width at small
        omega
      rw [round, if_neg nonzero]
      simp only [unit]
      rw [if_pos (by decide)]
      have shift : ((-149 : Int) - (-149 - 23)).toNat = 23 := by decide
      rw [shift, shiftRound_shifted]
      have pattern :
          min (((-149 : Int) + 149).toNat * leadingBit + q) infinity.toNat =
          (magnitude w).toNat := by
        rw [leading]
        simp only [Int.add_left_neg, Int.toNat_zero]
        omega
      rw [pattern, same]
  · have significandEq : significand w = q + 2 ^ 23 := by
      simp only [significand, field, subnormal, if_false, leading, fraction]
    have exponentEq : exponent w = (f : Int) - 150 := by
      simp [exponent, field, subnormal]
    have pattern :
        min (((f : Int) - 150 + 149).toNat * leadingBit + (q + 2 ^ 23))
          infinity.toNat =
        (magnitude w).toNat := by
      have lower : ((f : Int) - 150 + 149).toNat = f - 1 := by omega
      rw [leading, lower, bound]
      exact join_fields subnormal split (bound ▸ finite)
    have nonzero : (q + 2 ^ 23) * 2 ^ 23 ≠ 0 := by omega
    have width : ((q + 2 ^ 23) * 2 ^ 23).log2 = 46 := by
      rw [Nat.log2_eq_iff nonzero]
      omega
    rw [significandEq, exponentEq, round, if_neg nonzero]
    have unit : max ((f : Int) - 150 - 23 +
        (((q + 2 ^ 23) * 2 ^ 23).log2 : Int) - 23) (-149) =
          (f : Int) - 150 := by
      rw [width]
      omega
    simp only [unit]
    rw [if_pos (by omega)]
    have shift : ((f : Int) - 150 - ((f : Int) - 150 - 23)).toNat = 23 := by
      omega
    rw [shift, shiftRound_shifted, pattern, same]

theorem mul_one {a : UInt32} (numeric : isNaN a = false) : mul a one = a := by
  have facts : isNegative one = false ∧ isNaN one = false ∧
      isInfinite one = false ∧
      isZero one = false ∧ significand one = 2 ^ 23 ∧ exponent one = -23 := by
        decide
  obtain ⟨sign, number, finite, nonzero, significandOne, exponentOne⟩ := facts
  simp only [mul, sign, number, finite, nonzero, numeric, significandOne,
    exponentOne, Bool.xor_false, Bool.false_eq_true, or_false, if_false]
  by_cases infinite : isInfinite a = true
  · have whole : magnitude a = infinity := by simpa [isInfinite] using infinite
    have notZero : isZero a = false := by
      rw [isZero, whole]
      rfl
    rw [if_pos infinite, if_neg (by simp [notZero]), ← whole,
      withSign_magnitude]
  · have small : (magnitude a).toNat < infinity.toNat := by
      have notInfinite : magnitude a ≠ infinity := by
        simpa [isInfinite] using infinite
      have different : (magnitude a).toNat ≠ infinity.toNat :=
        fun same => notInfinite (UInt32.toNat_inj.mp same)
      have bounded := isNaN_eq_false.mp numeric
      omega
    rw [if_neg infinite]
    exact (round_significand small _).trans (withSign_magnitude a)

theorem isNaN_nan : isNaN nan = true := by decide

theorem isNaN_withSign (negative : Bool) {m : UInt32}
    (bounded : m.toNat ≤ infinity.toNat) :
    isNaN (withSign negative m) = false := by
  have small : m.toNat < 2 ^ 31 := Nat.lt_of_le_of_lt bounded (by decide)
  rw [isNaN_eq_false, magnitude_withSign negative small]
  exact bounded

theorem isNaN_round (negative : Bool) (m : Nat) (e : Int) :
    isNaN (round negative m e) = false := by
  rw [round]
  split
  next => exact isNaN_withSign negative (by decide)
  next =>
    apply isNaN_withSign
    rw [UInt32.toNat_ofNat']
    exact Nat.le_trans (Nat.mod_le _ _) (Nat.min_le_right _ _)

structure IsScale (w : UInt32) : Prop where
  number : isNaN w = false
  finite : isInfinite w = false
  nonzero : isZero w = false

theorem isNaN_mul {a b : UInt32} (number : isNaN a = false)
    (scale : IsScale b) : isNaN (mul a b) = false := by
  simp only [mul, number, scale.number, scale.finite, scale.nonzero,
    Bool.false_eq_true, or_false, if_false]
  by_cases infinite : isInfinite a = true
  · have whole : magnitude a = infinity := by simpa [isInfinite] using infinite
    have notZero : isZero a = false := by
      rw [isZero, whole]
      rfl
    rw [if_pos infinite, if_neg (by simp [notZero])]
    exact isNaN_withSign _ (Nat.le_refl _)
  · rw [if_neg infinite]
    exact isNaN_round _ _ _

theorem isNaN_left_of_mul {a b : UInt32} (number : isNaN (mul a b) = false) :
    isNaN a = false := by
  cases nan : isNaN a with
  | false => rfl
  | true =>
      have product : mul a b = Single.nan := by simp [mul, nan]
      rw [product, isNaN_nan] at number
      exact number

theorem isNaN_ofInt (i : Int) : isNaN (ofInt i) = false := isNaN_round _ _ _

end VertexFetch.Single
