import VertexFetch.Proofs.Single.Nearest

namespace VertexFetch.Single

/-- The single of the same value as a half. A NaN keeps its sign and its
fraction, and becomes quiet. -/
structure Widens (h : UInt16) (w : UInt32) : Prop where
  sign : 2 ^ 31 ≤ w.toNat ↔ 2 ^ 15 ≤ h.toNat
  finite : h.toNat % 2 ^ 15 < 31 * 2 ^ 10 →
    w.toNat % 2 ^ 31 < 255 * 2 ^ 23 ∧
      number 23 127 (w.toNat % 2 ^ 31) = number 10 15 (h.toNat % 2 ^ 15)
  infinite : h.toNat % 2 ^ 15 = 31 * 2 ^ 10 →
    w.toNat % 2 ^ 31 = 255 * 2 ^ 23
  nan : 31 * 2 ^ 10 < h.toNat % 2 ^ 15 →
    w.toNat % 2 ^ 31 = 0x7fc00000 ||| (h.toNat % 2 ^ 10) <<< 13

theorem Widens.unique {h : UInt16} {w w' : UInt32} (first : Widens h w)
    (second : Widens h w') : w = w' := by
  have sign : 2 ^ 31 ≤ w.toNat ↔ 2 ^ 31 ≤ w'.toNat :=
    first.sign.trans second.sign.symm
  have magnitude : w.toNat % 2 ^ 31 = w'.toNat % 2 ^ 31 := by
    rcases Nat.lt_trichotomy (h.toNat % 2 ^ 15) (31 * 2 ^ 10) with
      finite | infinite | nan
    · refine (strictMono_number 127 23).injective ?_
      rw [(first.finite finite).2, (second.finite finite).2]
    · rw [first.infinite infinite, second.infinite infinite]
    · rw [first.nan nan, second.nan nan]
  have bound := w.toNat_lt
  have bound' := w'.toNat_lt
  apply UInt32.toNat_inj.mp
  omega

private theorem widens_of_magnitude {h : UInt16} {m : UInt32}
    (small : m.toNat < 2 ^ 31) (special : 31 * 2 ^ 10 ≤ h.toNat % 2 ^ 15)
    (infinite : h.toNat % 2 ^ 15 = 31 * 2 ^ 10 → m.toNat = 255 * 2 ^ 23)
    (nan : 31 * 2 ^ 10 < h.toNat % 2 ^ 15 →
      m.toNat = 0x7fc00000 ||| (h.toNat % 2 ^ 10) <<< 13) :
    Widens h (withSign (0x8000 ≤ h) m) := by
  have pattern : (withSign (0x8000 ≤ h) m).toNat =
      (if 2 ^ 15 ≤ h.toNat then 2 ^ 31 else 0) + m.toNat := by
    rw [toNat_withSign _ small]
    simp only [decide_eq_true_eq, UInt16.le_iff_toNat_le]
    rfl
  have magnitude : (withSign (0x8000 ≤ h) m).toNat % 2 ^ 31 = m.toNat := by
    rw [pattern]
    split <;> omega
  refine ⟨?_, fun finite => by omega, ?_, ?_⟩
  · rw [pattern]
    split <;> omega
  · rw [magnitude]
    exact infinite
  · rw [magnitude]
    exact nan

private theorem widens_of_round {h : UInt16} {m : Nat} {e : ℤ}
    (few : m < 2 ^ 24) (above : -149 ≤ e) (below : e < 104)
    (same : number 10 15 (h.toNat % 2 ^ 15) = m * 2 ^ e)
    (finite : h.toNat % 2 ^ 15 < 31 * 2 ^ 10) :
    Widens h (round (0x8000 ≤ h) m e) := by
  refine ⟨?_, fun _ => ?_, fun infinite => by omega, fun nan => by omega⟩
  · rw [isNegative_round, decide_eq_true_eq, UInt16.le_iff_toNat_le]
    rfl
  · by_cases zero : m = 0
    · have pattern : (round (0x8000 ≤ h) m e).toNat % 2 ^ 31 = 0 := by
        rw [round, if_pos zero]
        cases decide (0x8000 ≤ h) <;> rfl
      rw [pattern, same, zero]
      simp [number]
    · rw [same]
      exact number_round _ zero few above below

theorem widens_ofHalf (h : UInt16) : Widens h (ofHalf h) := by
  have split : h.toNat % 2 ^ 15 =
      (h.toNat >>> 10) % 32 * 2 ^ 10 + h.toNat % 1024 := by
    rw [Nat.shiftRight_eq_div_pow]
    omega
  have small : h.toNat % 1024 < 2 ^ 10 := Nat.mod_lt _ (by decide)
  have below : (h.toNat >>> 10) % 32 < 32 := Nat.mod_lt _ (by decide)
  rw [ofHalf]
  generalize (h.toNat >>> 10) % 32 = field at split below
  by_cases special : field = 31
  · rw [if_pos special]
    by_cases whole : h.toNat % 1024 = 0
    · rw [if_pos whole]
      exact widens_of_magnitude (by decide) (by omega) (fun _ => by decide)
        fun nan => by omega
    · have payload : (h.toNat % 1024) <<< 13 < 2 ^ 23 := by
        rw [Nat.shiftLeft_eq]
        omega
      have pattern :
          (Single.nan ||| UInt32.ofNat ((h.toNat % 1024) <<< 13)).toNat =
          0x7fc00000 ||| (h.toNat % 2 ^ 10) <<< 13 := by
        rw [UInt32.toNat_or, UInt32.toNat_ofNat_of_lt'
          (Nat.lt_trans payload (by decide))]
        rfl
      rw [if_neg whole]
      refine widens_of_magnitude ?_ (by omega) (fun infinite => by omega)
        fun _ => pattern
      rw [pattern]
      exact Nat.or_lt_two_pow (by decide) (by omega)
  rw [if_neg special]
  have finite : h.toNat % 2 ^ 15 < 31 * 2 ^ 10 := by omega
  cases field with
  | zero =>
      rw [if_pos rfl]
      refine widens_of_round (by omega) (by decide) (by decide) ?_ finite
      rw [split, number_mul_add 15 (by omega) (.inl rfl)]
      norm_num
  | succ u =>
      rw [if_neg (Nat.succ_ne_zero u)]
      refine widens_of_round (by omega) (by omega) (by omega) ?_ finite
      have places : (u + 1) * 2 ^ 10 + h.toNat % 1024 =
          u * 2 ^ 10 + (h.toNat % 1024 + 1024) := by omega
      rw [split, places, number_mul_add 15 (by omega) (.inr (by omega))]
      congr 2
      push_cast
      ring

end VertexFetch.Single
