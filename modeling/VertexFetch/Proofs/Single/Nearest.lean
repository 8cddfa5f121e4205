import Mathlib.Algebra.Order.Field.Power
import Mathlib.Tactic.Linarith
import Mathlib.Tactic.NormNum
import Mathlib.Tactic.Ring
import VertexFetch.Proofs.Single

namespace VertexFetch.Single

/-- The number that a pattern without its sign stands for, if its low `fraction`
bits are the fraction and those above are the exponent, counted from `bias`. -/
def number (fraction bias p : Nat) : ℚ :=
  (if p / 2 ^ fraction = 0 then p % 2 ^ fraction
    else p % 2 ^ fraction + 2 ^ fraction : Nat) *
    2 ^ ((max (p / 2 ^ fraction) 1 : Nat) - bias - fraction : ℤ)

section

variable {fraction u r : Nat} (bias : Nat)

private theorem number_of_lt (small : r < 2 ^ fraction) :
    number fraction bias r = r * 2 ^ (1 - bias - fraction : ℤ) := by
  simp [number, Nat.div_eq_of_lt small, Nat.mod_eq_of_lt small]

private theorem number_of_field (small : r < 2 ^ fraction) :
    number fraction bias ((u + 1) * 2 ^ fraction + r) =
      (r + 2 ^ fraction) * 2 ^ (u + 1 - bias - fraction : ℤ) := by
  have positive : 0 < 2 ^ fraction := Nat.two_pow_pos fraction
  have field : ((u + 1) * 2 ^ fraction + r) / 2 ^ fraction = u + 1 := by
    rw [Nat.add_comm, Nat.add_mul_div_right _ _ positive,
      Nat.div_eq_of_lt small, Nat.zero_add]
  have rest : ((u + 1) * 2 ^ fraction + r) % 2 ^ fraction = r := by
    rw [Nat.add_comm, Nat.add_mul_mod_self_right, Nat.mod_eq_of_lt small]
  simp [number, field, rest]

/-- A significand above a multiple of the leading bit. One that is too large by
one bit carries into the exponent. -/
theorem number_mul_add (few : r ≤ 2 ^ (fraction + 1))
    (normal : u = 0 ∨ 2 ^ fraction ≤ r) :
    number fraction bias (u * 2 ^ fraction + r) =
      r * 2 ^ (u + 1 - bias - fraction : ℤ) := by
  have double : 2 ^ (fraction + 1) = 2 ^ fraction + 2 ^ fraction := by ring
  by_cases small : r < 2 ^ fraction
  · obtain rfl : u = 0 := by omega
    rw [Nat.zero_mul, Nat.zero_add, number_of_lt bias small]
    simp
  obtain ⟨q, rfl⟩ := Nat.exists_eq_add_of_le (Nat.le_of_not_lt small)
  by_cases last : q < 2 ^ fraction
  · have same : u * 2 ^ fraction + (2 ^ fraction + q) =
        (u + 1) * 2 ^ fraction + q := by ring
    rw [same, number_of_field bias last]
    push_cast
    ring
  · obtain rfl : q = 2 ^ fraction := by omega
    have same : u * 2 ^ fraction + (2 ^ fraction + 2 ^ fraction) =
        (u + 1 + 1) * 2 ^ fraction + 0 := by ring
    have next : ((u + 1 : Nat) + 1 - bias - fraction : ℤ) =
        (u + 1 - bias - fraction) + 1 := by
      push_cast
      ring
    rw [same, number_of_field bias (Nat.two_pow_pos fraction), next,
      zpow_add_one₀ (by norm_num)]
    push_cast
    ring

theorem exists_places (fraction p : Nat) : ∃ u r,
    p = u * 2 ^ fraction + r ∧ r < 2 ^ (fraction + 1) ∧
      (u = 0 ∨ 2 ^ fraction ≤ r) := by
  have positive : 0 < 2 ^ fraction := Nat.two_pow_pos fraction
  have small : p % 2 ^ fraction < 2 ^ fraction := Nat.mod_lt _ positive
  have double : 2 ^ (fraction + 1) = 2 ^ fraction + 2 ^ fraction := by ring
  have split := Nat.div_add_mod' p (2 ^ fraction)
  cases field : p / 2 ^ fraction with
  | zero =>
      rw [field, Nat.zero_mul, Nat.zero_add] at split
      exact ⟨0, p, by simp, by omega, .inl rfl⟩
  | succ u =>
      rw [field, Nat.succ_mul] at split
      exact ⟨u, 2 ^ fraction + p % 2 ^ fraction, by omega, by omega,
        .inr (Nat.le_add_right _ _)⟩

theorem strictMono_number (fraction : Nat) :
    StrictMono (number fraction bias) := by
  refine strictMono_nat_of_lt_succ fun p => ?_
  obtain ⟨u, r, rfl, few, normal⟩ := exists_places fraction p
  have positive : (0 : ℚ) < 2 ^ (u + 1 - bias - fraction : ℤ) := by positivity
  rw [Nat.add_assoc, number_mul_add bias few.le normal,
    number_mul_add bias few (by omega)]
  push_cast
  linarith

end

/-- Of all patterns up to that of infinity, `p` stands for the number nearest to
`x`, and is even if another is as near. The pattern of infinity stands for the
power of two after the largest finite number. -/
def IsNearest (x : ℚ) (p : Nat) : Prop :=
  p ≤ 255 * 2 ^ 23 ∧ ∀ q ≤ 255 * 2 ^ 23, q ≠ p →
    |x - number 23 127 p| < |x - number 23 127 q| ∨
      |x - number 23 127 p| = |x - number 23 127 q| ∧ p % 2 = 0

structure Nearest (x : ℚ) (w : UInt32) : Prop where
  sign : 2 ^ 31 ≤ w.toNat ↔ x < 0
  magnitude : IsNearest |x| (w.toNat % 2 ^ 31)

def value (w : UInt32) : ℚ :=
  (if 2 ^ 31 ≤ w.toNat then -1 else 1) * number 23 127 (w.toNat % 2 ^ 31)

theorem IsNearest.unique {x : ℚ} {p q : Nat} (first : IsNearest x p)
    (second : IsNearest x q) : p = q := by
  have apart {p q : Nat} (first : IsNearest x p) (second : IsNearest x q) :
      ¬ p < q := by
    intro before
    have even : |x - number 23 127 p| = |x - number 23 127 q| ∧ p % 2 = 0 ∧
        q % 2 = 0 := by
      rcases first.2 q second.1 before.ne' with nearer | ⟨same, even⟩ <;>
        rcases second.2 p first.1 before.ne with nearer' | ⟨same', even'⟩
      · exact absurd nearer' nearer.not_gt
      · exact absurd same' nearer.ne'
      · exact absurd same nearer'.ne'
      · exact ⟨same, even, even'⟩
    obtain ⟨same, even, even'⟩ := even
    have between : p + 1 < q := by omega
    have low := strictMono_number 127 23 p.lt_succ_self
    have high := strictMono_number 127 23 between
    have middle : x - number 23 127 p = number 23 127 q - x := by
      rcases abs_eq_abs.mp same with equal | opposite
      · linarith
      · linarith
    have nearer : |x - number 23 127 (p + 1)| < |x - number 23 127 p| := by
      rw [abs_of_pos (by linarith : 0 < x - number 23 127 p), abs_lt]
      constructor <;> linarith
    rcases first.2 (p + 1) (by have := second.1; omega) (by omega) with
      nearer' | ⟨same', _⟩
    · exact nearer.not_gt nearer'
    · exact nearer.ne' same'
  exact Nat.le_antisymm (Nat.le_of_not_lt (apart second first))
    (Nat.le_of_not_lt (apart first second))

theorem Nearest.unique {x : ℚ} {w w' : UInt32} (first : Nearest x w)
    (second : Nearest x w') : w = w' := by
  have magnitude := first.magnitude.unique second.magnitude
  have sign := first.sign.trans second.sign.symm
  have bound := w.toNat_lt
  have bound' := w'.toNat_lt
  apply UInt32.toNat_inj.mp
  omega

theorem isNearest_of_between {x : ℚ} {p : Nat} (bounded : p ≤ 255 * 2 ^ 23)
    (below : ∀ q, q + 1 = p → number 23 127 q + number 23 127 p < 2 * x ∨
      number 23 127 q + number 23 127 p = 2 * x ∧ p % 2 = 0)
    (above : p = 255 * 2 ^ 23 ∨
      2 * x < number 23 127 p + number 23 127 (p + 1) ∨
      2 * x = number 23 127 p + number 23 127 (p + 1) ∧ p % 2 = 0) :
    IsNearest x p := by
  have mono := strictMono_number 127 23
  refine ⟨bounded, ?_⟩
  intro q inside other
  rcases Nat.lt_or_gt_of_ne other with before | after
  · obtain ⟨p', rfl⟩ := Nat.exists_eq_add_of_lt before
    have next := mono (q + p').lt_succ_self
    have reached := mono.monotone (Nat.le_add_right q p')
    rcases below (q + p') rfl with inner | ⟨edge, even⟩
    · refine .inl ?_
      rw [abs_of_pos (by linarith : 0 < x - number 23 127 q), abs_lt]
      constructor <;> linarith
    · rw [abs_of_pos (by linarith : 0 < x - number 23 127 q),
        abs_of_neg (by linarith : x - number 23 127 (q + p' + 1) < 0)]
      rcases reached.lt_or_eq with further | same
      · exact .inl (by linarith)
      · exact .inr ⟨by linarith, even⟩
  · have next := mono p.lt_succ_self
    have reached := mono.monotone (show p + 1 ≤ q from after)
    rcases above with last | inner | ⟨edge, even⟩
    · omega
    · refine .inl ?_
      rw [abs_of_neg (by linarith : x - number 23 127 q < 0), abs_lt]
      constructor <;> linarith
    · rw [abs_of_neg (by linarith : x - number 23 127 q < 0),
        abs_of_pos (by linarith : 0 < x - number 23 127 p)]
      rcases reached.lt_or_eq with further | same
      · exact .inl (by linarith)
      · exact .inr ⟨by linarith, even⟩

/-- Of the multiples of a unit, the one with factor `r` is the nearest to `x`,
and `r` is even if another is as near. -/
def RoundsTo (unit x : ℚ) (r : Nat) : Prop :=
  ((2 * r - 1) * unit < 2 * x ∨ (2 * r - 1) * unit = 2 * x ∧ r % 2 = 0) ∧
    (2 * x < (2 * r + 1) * unit ∨ 2 * x = (2 * r + 1) * unit ∧ r % 2 = 0)

theorem RoundsTo.scale {unit x c : ℚ} {r : Nat} (rounds : RoundsTo unit x r)
    (positive : 0 < c) : RoundsTo (unit * c) (x * c) r := by
  have times (a b : ℚ) : a * c < b * c ↔ a < b := mul_lt_mul_iff_left₀ positive
  have times' (a b : ℚ) : a * c = b * c ↔ a = b := mul_left_inj' positive.ne'
  simpa only [RoundsTo, ← mul_assoc, times, times'] using rounds

theorem roundsTo_self (unit : ℚ) (positive : 0 < unit) (r : Nat) :
    RoundsTo unit (r * unit) r :=
  ⟨.inl (by linarith), .inl (by linarith)⟩

theorem roundsTo_shiftRound (m s : Nat) :
    RoundsTo (2 ^ s) m (shiftRound m s) := by
  have small : ((m % 2 ^ s : Nat) : ℚ) < 2 ^ s := by
    exact_mod_cast Nat.mod_lt m (Nat.two_pow_pos s)
  have whole : (m : ℚ) = (m / 2 ^ s : Nat) * 2 ^ s + (m % 2 ^ s : Nat) := by
    exact_mod_cast (Nat.div_add_mod' m (2 ^ s)).symm
  have positive : (0 : ℚ) ≤ (m % 2 ^ s : Nat) := by positivity
  simp only [shiftRound, Nat.one_shiftLeft]
  split
  next up =>
    have up : (2 : ℚ) ^ s < 2 * (m % 2 ^ s : Nat) ∨
        2 * (m % 2 ^ s : Nat) = (2 : ℚ) ^ s ∧ m / 2 ^ s % 2 = 1 := by
      exact_mod_cast up
    refine ⟨?_, .inl (by push_cast; linarith)⟩
    rcases up with above | ⟨tie, odd⟩
    · exact .inl (by push_cast; linarith)
    · exact .inr ⟨by push_cast; linarith, by omega⟩
  next down =>
    have down : 2 * (m % 2 ^ s : Nat) < (2 : ℚ) ^ s ∨
        2 * (m % 2 ^ s : Nat) = (2 : ℚ) ^ s ∧ m / 2 ^ s % 2 = 0 := by
      have down : 2 * (m % 2 ^ s) < 2 ^ s ∨
        2 * (m % 2 ^ s) = 2 ^ s ∧ m / 2 ^ s % 2 = 0 := by omega
      exact_mod_cast down
    refine ⟨.inl (by linarith), ?_⟩
    rcases down with under | ⟨tie, even⟩
    · exact .inl (by linarith)
    · exact .inr ⟨by linarith, even⟩

section

variable {u r : Nat} {x : ℚ}

theorem number_single (few : r ≤ 2 ^ 24) (normal : u = 0 ∨ 2 ^ 23 ≤ r) :
    number 23 127 (u * 2 ^ 23 + r) = r * 2 ^ (u - 149 : ℤ) := by
  have places : (u + 1 - (127 : Nat) - (23 : Nat) : ℤ) = u - 149 := by
    push_cast
    ring
  rw [number_mul_add 127 few normal, places]

private theorem unit_succ (u : Nat) :
    (2 : ℚ) ^ ((u + 1 : Nat) - 149 : ℤ) = 2 ^ (u - 149 : ℤ) * 2 := by
  rw [← zpow_add_one₀ (by norm_num)]
  congr 1
  push_cast
  ring

private theorem reaches_below (few : r ≤ 2 ^ 24) (normal : u = 0 ∨ 2 ^ 23 ≤ r)
    (rounds : RoundsTo (2 ^ (u - 149 : ℤ)) x r)
    (large : u = 0 ∨ 2 ^ 23 * 2 ^ (u - 149 : ℤ) ≤ x) (q : Nat)
    (next : q + 1 = u * 2 ^ 23 + r) :
    number 23 127 q + number 23 127 (u * 2 ^ 23 + r) < 2 * x ∨
      number 23 127 q + number 23 127 (u * 2 ^ 23 + r) = 2 * x ∧
        (u * 2 ^ 23 + r) % 2 = 0 := by
  rw [number_single few normal]
  by_cases inner : u = 0 ∨ 2 ^ 23 ≤ r - 1
  · obtain ⟨r, rfl⟩ : ∃ r', r = r' + 1 := ⟨r - 1, by omega⟩
    obtain rfl : q = u * 2 ^ 23 + r := by omega
    have sum : number 23 127 (u * 2 ^ 23 + r) +
        (r + 1 : Nat) * 2 ^ (u - 149 : ℤ) =
          (2 * (r + 1 : Nat) - 1) * 2 ^ (u - 149 : ℤ) := by
      rw [number_single (by omega) (by omega)]
      push_cast
      ring
    rw [sum]
    exact rounds.1.imp_right fun tie => ⟨tie.1, by omega⟩
  · obtain ⟨u, rfl⟩ : ∃ u', u = u' + 1 := ⟨u - 1, by omega⟩
    obtain rfl : r = 2 ^ 23 := by omega
    obtain rfl : q = u * 2 ^ 23 + (2 ^ 24 - 1) := by omega
    have positive : (0 : ℚ) < 2 ^ (u - 149 : ℤ) := by positivity
    have double := unit_succ u
    have reached := large.resolve_left (by omega)
    refine .inl ?_
    rw [number_single (by omega) (by omega), double]
    rw [double] at reached
    push_cast
    linarith

private theorem reaches_above (few : r ≤ 2 ^ 24) (normal : u = 0 ∨ 2 ^ 23 ≤ r)
    (rounds : RoundsTo (2 ^ (u - 149 : ℤ)) x r) :
    2 * x < number 23 127 (u * 2 ^ 23 + r) +
        number 23 127 (u * 2 ^ 23 + r + 1) ∨
      2 * x = number 23 127 (u * 2 ^ 23 + r) +
        number 23 127 (u * 2 ^ 23 + r + 1) ∧ (u * 2 ^ 23 + r) % 2 = 0 := by
  rw [number_single few normal, Nat.add_assoc]
  by_cases inner : r < 2 ^ 24
  · have sum : r * 2 ^ (u - 149 : ℤ) + number 23 127 (u * 2 ^ 23 + (r + 1)) =
        (2 * r + 1) * 2 ^ (u - 149 : ℤ) := by
      rw [number_single inner (by omega)]
      push_cast
      ring
    rw [sum]
    exact rounds.2.imp_right fun tie => ⟨tie.1, by omega⟩
  · obtain rfl : r = 2 ^ 24 := by omega
    have carried : u * 2 ^ 23 + (2 ^ 24 + 1) =
        (u + 1) * 2 ^ 23 + (2 ^ 23 + 1) := by omega
    have positive : (0 : ℚ) < 2 ^ (u - 149 : ℤ) := by positivity
    have double := unit_succ u
    refine .inl ?_
    rw [carried, number_single (by omega) (by omega), double]
    have upper : 2 * x ≤ (2 * (2 ^ 24 : Nat) + 1) * 2 ^ (u - 149 : ℤ) :=
      rounds.2.elim le_of_lt fun tie => tie.1.le
    push_cast at upper ⊢
    linarith

theorem normal_of_roundsTo (rounds : RoundsTo (2 ^ (u - 149 : ℤ)) x r)
    (large : u = 0 ∨ 2 ^ 23 * 2 ^ (u - 149 : ℤ) ≤ x) :
    u = 0 ∨ 2 ^ 23 ≤ r := by
  refine large.imp_right fun large => ?_
  have positive : (0 : ℚ) < 2 ^ (u - 149 : ℤ) := by positivity
  have upper : 2 * x ≤ (2 * r + 1) * 2 ^ (u - 149 : ℤ) :=
    rounds.2.elim le_of_lt fun tie => tie.1.le
  have reached : (2 * 2 ^ 23 : ℚ) * 2 ^ (u - 149 : ℤ) ≤
      (2 * r + 1) * 2 ^ (u - 149 : ℤ) := by linarith
  have reached : (2 * 2 ^ 23 : ℚ) ≤ 2 * r + 1 :=
    le_of_mul_le_mul_right reached positive
  have reached : 2 * 2 ^ 23 ≤ 2 * r + 1 := by exact_mod_cast reached
  omega

theorem isNearest_of_roundsTo (few : r ≤ 2 ^ 24)
    (rounds : RoundsTo (2 ^ (u - 149 : ℤ)) x r)
    (large : u = 0 ∨ 2 ^ 23 * 2 ^ (u - 149 : ℤ) ≤ x) :
    IsNearest x (min (u * 2 ^ 23 + r) (255 * 2 ^ 23)) := by
  have normal := normal_of_roundsTo rounds large
  have below := reaches_below few normal rounds large
  by_cases inside : u * 2 ^ 23 + r ≤ 255 * 2 ^ 23
  · rw [Nat.min_eq_left inside]
    exact isNearest_of_between inside below
      (.inr (reaches_above few normal rounds))
  · rw [Nat.min_eq_right (by omega)]
    refine isNearest_of_between (Nat.le_refl _) ?_ (.inl rfl)
    intro q next
    have mono := strictMono_number 127 23
    obtain ⟨last, same⟩ : ∃ last, last + 1 = u * 2 ^ 23 + r :=
      ⟨u * 2 ^ 23 + r - 1, by omega⟩
    have low := mono (show q < last by omega)
    have high := mono (show 255 * 2 ^ 23 < u * 2 ^ 23 + r by omega)
    refine .inl ?_
    rcases below last same with inner | ⟨edge, _⟩
    · linarith
    · linarith

end

/-- The exponent of the last place that is kept of `m * 2 ^ e`. -/
def lastPlace (m : Nat) (e : ℤ) : ℤ := max (e + m.log2 - 23) (-149)

def rounded (m : Nat) (e : ℤ) : Nat :=
  if e ≤ lastPlace m e then shiftRound m (lastPlace m e - e).toNat
  else m <<< (e - lastPlace m e).toNat

section

variable {m : Nat} {e : ℤ}

theorem le_lastPlace (m : Nat) (e : ℤ) : -149 ≤ lastPlace m e :=
  le_max_right _ _

theorem toNat_round (negative : Bool) (nonzero : m ≠ 0) (e : ℤ) :
    (round negative m e).toNat = (if negative then 2 ^ 31 else 0) +
      min ((lastPlace m e + 149).toNat * 2 ^ 23 + rounded m e)
        (255 * 2 ^ 23) := by
  have top : infinity.toNat = 255 * 2 ^ 23 := by decide
  have leading : leadingBit = 2 ^ 23 := rfl
  rw [round, if_neg nonzero]
  change (withSign negative (UInt32.ofNat (min ((lastPlace m e + 149).toNat *
    leadingBit + rounded m e) infinity.toNat))).toNat = _
  rw [top, leading]
  generalize (lastPlace m e + 149).toNat * 2 ^ 23 + rounded m e = pattern
  have bounded : min pattern (255 * 2 ^ 23) ≤ 255 * 2 ^ 23 :=
    Nat.min_le_right _ _
  generalize min pattern (255 * 2 ^ 23) = pattern at bounded
  have same : (UInt32.ofNat pattern).toNat = pattern :=
    UInt32.toNat_ofNat_of_lt' (Nat.lt_of_le_of_lt bounded (by decide))
  rw [toNat_withSign negative (by rw [same]; omega), same]

theorem roundsTo_rounded (m : Nat) (e : ℤ) :
    RoundsTo (2 ^ lastPlace m e) (m * 2 ^ e) (rounded m e) := by
  rw [rounded]
  split
  next coarse =>
    have rounds := (roundsTo_shiftRound m (lastPlace m e - e).toNat).scale
      (show (0 : ℚ) < 2 ^ e by positivity)
    have unit : (2 : ℚ) ^ (lastPlace m e - e).toNat * 2 ^ e =
        2 ^ lastPlace m e := by
      rw [← zpow_natCast, Int.toNat_of_nonneg (by omega),
        ← zpow_add₀ (by norm_num), sub_add_cancel]
    rwa [unit] at rounds
  next fine =>
    have exact : (m * 2 ^ e : ℚ) =
        (m <<< (e - lastPlace m e).toNat : Nat) * 2 ^ lastPlace m e := by
      rw [Nat.shiftLeft_eq, Nat.cast_mul, Nat.cast_pow, Nat.cast_ofNat,
        mul_assoc, ← zpow_natCast, Int.toNat_of_nonneg (by omega),
        ← zpow_add₀ (by norm_num), sub_add_cancel]
    rw [exact]
    exact roundsTo_self _ (by positivity) _

theorem rounded_mul (fine : lastPlace m e ≤ e) :
    (rounded m e * 2 ^ lastPlace m e : ℚ) = m * 2 ^ e := by
  have same : rounded m e = m <<< (e - lastPlace m e).toNat := by
    rw [rounded]
    split
    next coarse =>
      obtain equal : lastPlace m e = e := le_antisymm fine coarse
      have whole := shiftRound_shifted m 0
      rw [Nat.pow_zero, Nat.mul_one] at whole
      rw [equal, Int.sub_self]
      exact whole
    next => rfl
  rw [same, Nat.shiftLeft_eq, Nat.cast_mul, Nat.cast_pow, Nat.cast_ofNat,
    mul_assoc, ← zpow_natCast, Int.toNat_of_nonneg (by omega),
    ← zpow_add₀ (by norm_num), sub_add_cancel]

theorem lt_lastPlace (m : Nat) (e : ℤ) :
    (m * 2 ^ e : ℚ) < 2 ^ 24 * 2 ^ lastPlace m e := by
  have high : (m : ℚ) < 2 ^ (m.log2 + 1 : ℤ) := by
    exact_mod_cast Nat.lt_log2_self
  have kept : e + m.log2 - 23 ≤ lastPlace m e := le_max_left _ _
  calc (m * 2 ^ e : ℚ) < 2 ^ (m.log2 + 1 : ℤ) * 2 ^ e := by gcongr
    _ = 2 ^ (m.log2 + 1 + e : ℤ) := (zpow_add₀ (by norm_num) _ _).symm
    _ ≤ 2 ^ (24 + lastPlace m e) :=
        zpow_le_zpow_right₀ (by norm_num) (by omega)
    _ = 2 ^ 24 * 2 ^ lastPlace m e := by
        rw [zpow_add₀ (by norm_num)]
        rfl

theorem lastPlace_cases (nonzero : m ≠ 0) (e : ℤ) :
    lastPlace m e = -149 ∨ (2 ^ 23 * 2 ^ lastPlace m e : ℚ) ≤ m * 2 ^ e := by
  have low : (2 : ℚ) ^ (m.log2 : ℤ) ≤ m := by
    exact_mod_cast Nat.log2_self_le nonzero
  rcases max_choice (e + m.log2 - 23) (-149) with normal | subnormal
  · refine .inr ?_
    calc (2 ^ 23 * 2 ^ lastPlace m e : ℚ)
        = 2 ^ (23 + (e + m.log2 - 23)) := by
          rw [zpow_add₀ (by norm_num), lastPlace, normal]
          rfl
      _ = 2 ^ (m.log2 : ℤ) * 2 ^ e := by
          rw [← zpow_add₀ (by norm_num)]
          congr 1
          ring
      _ ≤ m * 2 ^ e := by gcongr
  · exact .inl subnormal

theorem rounded_le (m : Nat) (e : ℤ) : rounded m e ≤ 2 ^ 24 := by
  have unit : (0 : ℚ) < 2 ^ lastPlace m e := by positivity
  have lower : (2 * rounded m e - 1 : ℚ) * 2 ^ lastPlace m e ≤
      2 * (m * 2 ^ e) :=
    (roundsTo_rounded m e).1.elim le_of_lt fun tie => tie.1.le
  have below := lt_lastPlace m e
  have below : (2 * rounded m e - 1 : ℚ) * 2 ^ lastPlace m e <
      2 ^ 25 * 2 ^ lastPlace m e := by linarith
  have below : (2 * rounded m e - 1 : ℚ) < 2 ^ 25 :=
    lt_of_mul_lt_mul_right below unit.le
  have below : (2 * rounded m e : ℚ) < 2 ^ 25 + 1 := by linarith
  have below : 2 * rounded m e < 2 ^ 25 + 1 := by exact_mod_cast below
  omega

def place (m : Nat) (e : ℤ) : Nat := (lastPlace m e + 149).toNat

theorem place_sub (m : Nat) (e : ℤ) :
    (place m e - 149 : ℤ) = lastPlace m e := by
  have lowest := le_lastPlace m e
  rw [place]
  omega

theorem roundsTo_place (m : Nat) (e : ℤ) :
    RoundsTo (2 ^ (place m e - 149 : ℤ)) (m * 2 ^ e) (rounded m e) := by
  rw [place_sub]
  exact roundsTo_rounded m e

theorem place_cases (nonzero : m ≠ 0) (e : ℤ) :
    place m e = 0 ∨ 2 ^ 23 * 2 ^ (place m e - 149 : ℤ) ≤ (m * 2 ^ e : ℚ) := by
  rw [place_sub]
  exact (lastPlace_cases nonzero e).imp_left fun lowest => by
    simp [place, lowest]

theorem toNat_round_mod (negative : Bool) (nonzero : m ≠ 0) (e : ℤ) :
    (round negative m e).toNat % 2 ^ 31 =
      min (place m e * 2 ^ 23 + rounded m e) (255 * 2 ^ 23) := by
  rw [toNat_round negative nonzero, place]
  split <;> omega

theorem isNearest_round (negative : Bool) (nonzero : m ≠ 0) (e : ℤ) :
    IsNearest (m * 2 ^ e) ((round negative m e).toNat % 2 ^ 31) := by
  rw [toNat_round_mod negative nonzero]
  exact isNearest_of_roundsTo (rounded_le m e) (roundsTo_place m e)
    (place_cases nonzero e)

theorem number_round (negative : Bool) (nonzero : m ≠ 0) (few : m < 2 ^ 24)
    (above : -149 ≤ e) (below : e < 104) :
    (round negative m e).toNat % 2 ^ 31 < 255 * 2 ^ 23 ∧
      number 23 127 ((round negative m e).toNat % 2 ^ 31) = m * 2 ^ e := by
  have width : m.log2 < 24 := (Nat.log2_lt nonzero).mpr few
  have fine : lastPlace m e ≤ e := by
    rw [lastPlace]
    omega
  have bounded : place m e ≤ 252 := by
    rw [place]
    omega
  have significand := rounded_le m e
  have inside : place m e * 2 ^ 23 + rounded m e < 255 * 2 ^ 23 := by omega
  rw [toNat_round_mod negative nonzero, Nat.min_eq_left inside.le]
  refine ⟨inside, ?_⟩
  rw [number_single significand
    (normal_of_roundsTo (roundsTo_place m e) (place_cases nonzero e)),
    place_sub]
  exact rounded_mul fine

theorem isNegative_round (negative : Bool) (m : Nat) (e : ℤ) :
    2 ^ 31 ≤ (round negative m e).toNat ↔ negative = true := by
  by_cases zero : m = 0
  · rw [round, if_pos zero]
    cases negative <;> decide
  · rw [toNat_round negative zero]
    cases negative
    · simp only [Bool.false_eq_true, if_false, iff_false]
      omega
    · simp

end

theorem isNearest_zero : IsNearest 0 0 := by
  refine isNearest_of_between (by decide) nofun (.inr (.inl ?_))
  have zero : number 23 127 0 = 0 := by simp [number]
  have positive := strictMono_number 127 23 (Nat.zero_lt_one)
  linarith

theorem nearest_round {negative : Bool} {m : Nat} (e : ℤ)
    (signed : m = 0 → negative = false) :
    Nearest ((if negative then -1 else 1) * (m * 2 ^ e))
      (round negative m e) := by
  have positive : (0 : ℚ) < 2 ^ e := by positivity
  by_cases zero : m = 0
  · obtain rfl := signed zero
    subst zero
    refine ⟨?_, ?_⟩
    · rw [isNegative_round]
      simp
    · have pattern : (round false 0 e).toNat % 2 ^ 31 = 0 := rfl
      rw [pattern]
      simpa using isNearest_zero
  · have product : (0 : ℚ) < m * 2 ^ e :=
      mul_pos (by exact_mod_cast Nat.pos_of_ne_zero zero) positive
    have nearest := isNearest_round negative zero e
    refine ⟨?_, ?_⟩
    · rw [isNegative_round]
      cases negative
      · simp only [Bool.false_eq_true, if_false, false_iff]
        linarith
      · simp only [if_true, true_iff]
        linarith
    · have magnitude :
          |(if negative then -1 else 1) * (m * 2 ^ e : ℚ)| = m * 2 ^ e := by
        cases negative
        · simp only [Bool.false_eq_true, if_false, one_mul, abs_of_pos product]
        · simp only [if_true, neg_one_mul, abs_neg, abs_of_pos product]
      rw [magnitude]
      exact nearest

private theorem sign_mul_natAbs (i : ℤ) :
    ((if decide (i < 0) then -1 else 1) * (i.natAbs * 2 ^ (0 : ℤ)) : ℚ) =
      i := by
  rw [Nat.cast_natAbs, Int.cast_abs]
  by_cases negative : i < 0
  · rw [if_pos (by simpa using negative),
      abs_of_neg (by exact_mod_cast negative)]
    ring
  · rw [if_neg (by simpa using negative),
      abs_of_nonneg (by exact_mod_cast not_lt.mp negative)]
    ring

theorem nearest_ofInt (i : ℤ) : Nearest i (ofInt i) := by
  have nearest : Nearest ((if decide (i < 0) then -1 else 1) *
      (i.natAbs * 2 ^ (0 : ℤ))) (ofInt i) := by
    refine nearest_round 0 fun zero => ?_
    rw [Int.natAbs_eq_zero.mp zero]
    rfl
  rwa [sign_mul_natAbs] at nearest

theorem ofInt_exact {i : ℤ} (small : i.natAbs < 2 ^ 24) :
    (ofInt i).toNat % 2 ^ 31 < 255 * 2 ^ 23 ∧ value (ofInt i) = i := by
  by_cases zero : i.natAbs = 0
  · obtain rfl := Int.natAbs_eq_zero.mp zero
    have pattern : (ofInt 0).toNat = 0 := rfl
    simp [value, pattern, number]
  · obtain ⟨finite, same⟩ := number_round (i < 0) zero small (by decide)
      (by decide : (0 : ℤ) < 104)
    refine ⟨finite, ?_⟩
    have sign := isNegative_round (i < 0) i.natAbs 0
    rw [value, ← sign_mul_natAbs i, ofInt, same]
    simp only [sign]

theorem number_magnitude (w : UInt32) :
    number 23 127 (w.toNat % 2 ^ 31) = significand w * 2 ^ exponent w := by
  rw [number, significand, exponent, exponentField, toNat_magnitude,
    Nat.shiftRight_eq_div_pow]
  generalize w.toNat % 2 ^ 31 = p
  have leading : leadingBit = 2 ^ 23 := rfl
  have places : ((max (p / 2 ^ 23) 1 : Nat) - (127 : Nat) - (23 : Nat) : ℤ) =
      if p / 2 ^ 23 = 0 then (-149 : ℤ)
      else ((p / 2 ^ 23 : Nat) : ℤ) - 150 := by
    split <;> omega
  rw [places, leading]

theorem value_eq (w : UInt32) : value w =
    (if isNegative w then -1 else 1) * (significand w * 2 ^ exponent w) := by
  rw [value, number_magnitude]
  by_cases negative : 2 ^ 31 ≤ w.toNat
  · rw [if_pos negative, if_pos (isNegative_iff.mpr negative)]
  · rw [if_neg negative, if_neg fun sign => negative (isNegative_iff.mp sign)]

theorem nearest_mul {a b : UInt32}
    (finite : isNaN a = false ∧ isInfinite a = false)
    (finite' : isNaN b = false ∧ isInfinite b = false)
    (signed : value a * value b = 0 → (isNegative a ^^ isNegative b) = false) :
    Nearest (value a * value b) (mul a b) := by
  have product : mul a b = round (isNegative a ^^ isNegative b)
      (significand a * significand b) (exponent a + exponent b) := by
    simp [mul, finite, finite']
  have same : value a * value b =
      (if (isNegative a ^^ isNegative b) then -1 else 1) *
        ((significand a * significand b : Nat) *
          2 ^ (exponent a + exponent b)) := by
    rw [value_eq, value_eq, zpow_add₀ (by norm_num), Nat.cast_mul]
    cases isNegative a <;> cases isNegative b <;> simp <;> ring
  rw [product, same]
  refine nearest_round _ fun zero => signed ?_
  rw [same, zero, Nat.cast_zero, zero_mul, mul_zero]

theorem nearest_of_between {x : ℚ} {w : UInt32} (p : Nat)
    (pattern : w.toNat = p + 1) (finite : p + 1 < 255 * 2 ^ 23)
    (positive : 0 < x) (below : number 23 127 p + number 23 127 (p + 1) < 2 * x)
    (above : 2 * x < number 23 127 (p + 1) + number 23 127 (p + 2)) :
    Nearest x w := by
  have small : (p + 1) % 2 ^ 31 = p + 1 := by omega
  refine ⟨?_, ?_⟩
  · constructor
    · omega
    · intro negative
      linarith
  · rw [pattern, small, abs_of_pos positive]
    refine isNearest_of_between finite.le ?_ (.inr (.inl above))
    intro q next
    obtain rfl : q = p := by omega
    exact .inl below

theorem nearest_reciprocal {n : Nat} (listed : n ∈ [127, 255, 32767, 65535]) :
    Nearest (1 / n) (reciprocal n) := by
  have each : (reciprocal 127).toNat = 0x3c010204 ∧
      (reciprocal 255).toNat = 0x3b808081 ∧
      (reciprocal 32767).toNat = 0x38000100 ∧
      (reciprocal 65535).toNat = 0x37800080 := by decide
  obtain ⟨first, second, third, fourth⟩ := each
  simp only [List.mem_cons, List.not_mem_nil, or_false] at listed
  rcases listed with rfl | rfl | rfl | rfl
  · exact nearest_of_between 0x3c010203 first (by decide) (by norm_num)
      (by norm_num [number]) (by norm_num [number])
  · exact nearest_of_between 0x3b808080 second (by decide) (by norm_num)
      (by norm_num [number]) (by norm_num [number])
  · exact nearest_of_between 0x380000ff third (by decide) (by norm_num)
      (by norm_num [number]) (by norm_num [number])
  · exact nearest_of_between 0x3780007f fourth (by decide) (by norm_num)
      (by norm_num [number]) (by norm_num [number])

theorem finite_of_lt {w : UInt32} (small : w.toNat % 2 ^ 31 < 255 * 2 ^ 23) :
    isNaN w = false ∧ isInfinite w = false := by
  have bounded : (magnitude w).toNat < infinity.toNat := by
    rw [toNat_magnitude]
    exact small
  refine ⟨isNaN_eq_false.mpr bounded.le, ?_⟩
  simp only [isInfinite, decide_eq_false_iff_not]
  intro same
  rw [same] at bounded
  exact Nat.lt_irrefl _ bounded

theorem value_ne_zero {w : UInt32} (nonzero : w.toNat % 2 ^ 31 ≠ 0) :
    value w ≠ 0 := by
  have zero : number 23 127 0 = 0 := by simp [number]
  have positive := strictMono_number 127 23 (Nat.pos_of_ne_zero nonzero)
  rw [zero] at positive
  refine mul_ne_zero ?_ positive.ne'
  split <;> norm_num

theorem nearest_fraction {i : ℤ} (small : i.natAbs < 2 ^ 24) {n : Nat}
    (listed : n ∈ [127, 255, 32767, 65535]) :
    Nearest (value (ofInt i) * value (reciprocal n))
      (mul (ofInt i) (reciprocal n)) := by
  have each : ∀ n ∈ [127, 255, 32767, 65535],
      (reciprocal n).toNat % 2 ^ 31 < 255 * 2 ^ 23 ∧
        (reciprocal n).toNat % 2 ^ 31 ≠ 0 ∧
        isNegative (reciprocal n) = false := by decide
  obtain ⟨finite, nonzero, positive⟩ := each n listed
  obtain ⟨finite', same⟩ := ofInt_exact small
  refine nearest_mul (finite_of_lt finite') (finite_of_lt finite) ?_
  intro product
  have zero : (i : ℚ) = 0 := by
    rw [← same]
    exact (mul_eq_zero.mp product).resolve_right (value_ne_zero nonzero)
  rw [positive, Int.cast_eq_zero.mp zero]
  rfl

end VertexFetch.Single
