import Mathlib.Algebra.Group.Nat.Defs
import VertexFetch.Word

namespace VertexFetch.Word

theorem and_ones (w : UInt32) : w &&& 0xffffffff = w := by
  apply UInt32.toNat_inj.mp
  rw [UInt32.toNat_and]
  exact (Nat.and_two_pow_sub_one_eq_mod _ 32).trans
    (Nat.mod_eq_of_lt w.toNat_lt)

theorem ones_and (w : UInt32) : 0xffffffff &&& w = w := by
  rw [UInt32.and_comm, and_ones]

theorem ofBool_eq_zero {b : Bool} : ofBool b = 0 ↔ b = false := by
  cases b with
  | false => simp [ofBool]
  | true => simp [ofBool]

theorem ofBool_eq_ones {b : Bool} : ofBool b = 0xffffffff ↔ b = true := by
  cases b with
  | false => simp [ofBool]
  | true => simp [ofBool]

theorem select_zero (t f : UInt32) : select 0 t f = f := by
  simp [select]

theorem select_ones (t f : UInt32) : select 0xffffffff t f = t := by
  rw [select, and_ones, ← UInt32.xor_assoc, UInt32.xor_self, UInt32.zero_xor]

theorem select_same (c t : UInt32) : select c t t = t := by
  simp [select]

/-- A select goes bit by bit, so this holds of every condition, not of masks
alone. -/
theorem select_ones_zero (c : UInt32) : select c 0xffffffff 0 = c := by
  simp [select, ones_and]

theorem select_decide (p : Prop) [Decidable p] (t f : UInt32) :
    select (ofBool (decide p)) t f = if p then t else f := by
  by_cases holds : p
  · rw [decide_eq_true holds, if_pos holds]
    exact select_ones t f
  · rw [decide_eq_false holds, if_neg holds]
    exact select_zero t f

theorem ofBool_and (a b : Bool) : ofBool a &&& ofBool b = ofBool (a && b) := by
  cases a with
  | false => exact UInt32.zero_and
  | true => exact ones_and (ofBool b)

theorem toInt_toInt32 (w : UInt32) :
    w.toInt32.toInt = (w.toNat : Int).bmod (2 ^ 32) := by
  change w.toBitVec.toInt = _
  rw [BitVec.toInt_eq_toNat_bmod]
  rfl

theorem toInt_toInt32_of_lt {w : UInt32} (small : w.toNat < 2 ^ 31) :
    w.toInt32.toInt = w.toNat := by
  rw [toInt_toInt32]
  exact Int.bmod_eq_of_le (by omega) (by omega)

theorem zero_divSigned (b : UInt32) : divSigned 0 b = 0 := by
  rw [divSigned, if_neg (by simp)]
  exact congrArg Int32.toUInt32 Int32.zero_div

theorem divSigned_zero (a : UInt32) : divSigned a 0 = 0 := by
  rw [divSigned, if_neg (by simp)]
  exact congrArg Int32.toUInt32 Int32.div_zero

theorem divSigned_one (a : UInt32) : divSigned a 1 = a := by
  simp [divSigned]

theorem ltSigned_of_lt {a : UInt32} (small : a.toNat < 2 ^ 31) (b : UInt32) :
    ltSigned a b = true ↔ a.toNat < b.toNat ∧ b.toNat < 2 ^ 31 := by
  have bounded := b.toNat_lt
  rw [ltSigned, decide_eq_true_eq, Int32.lt_iff_toInt_lt,
    toInt_toInt32_of_lt small, toInt_toInt32, Int.bmod_def]
  omega

theorem ltSigned_self (a : UInt32) : ltSigned a a = false := by
  simp [ltSigned]

theorem byte_zero (k : Nat) : byte 0 k = 0 := by
  simp [byte]

theorem half_zero (k : Nat) : half 0 k = 0 := by
  simp [half]

theorem ofInt_toInt (i : Int32) : UInt32.ofInt i.toInt = i.toUInt32 := by
  apply UInt32.toNat_inj.mp
  change (i.toBitVec.toInt % 2 ^ 32).toNat % 2 ^ 32 = i.toBitVec.toNat
  have residue : (i.toBitVec.toNat : Int).bmod (2 ^ 32) % 2 ^ 32 =
      i.toBitVec.toNat % 2 ^ 32 :=
    Int.bmod_emod
  have bounded := i.toBitVec.isLt
  rw [BitVec.toInt_eq_toNat_bmod, residue]
  omega

theorem ofInt_bmod (w : UInt32) :
    UInt32.ofInt ((w.toNat : Int).bmod (2 ^ 32)) = w := by
  rw [← toInt_toInt32, ofInt_toInt]
  rfl

theorem toInt_signExtend8 (b : UInt8) :
    (signExtend8 b).toInt32.toInt = (b.toNat : Int).bmod (2 ^ 8) := by
  have signed : b.toInt8.toInt = (b.toNat : Int).bmod (2 ^ 8) :=
    BitVec.toInt_eq_toNat_bmod _
  exact (Int8.toInt_toInt32 _).trans signed

theorem toInt_signExtend16 (h : UInt16) :
    (signExtend16 h).toInt32.toInt = (h.toNat : Int).bmod (2 ^ 16) := by
  have signed : h.toInt16.toInt = (h.toNat : Int).bmod (2 ^ 16) :=
    BitVec.toInt_eq_toNat_bmod _
  exact (Int16.toInt_toInt32 _).trans signed

theorem toNat_byte (w : UInt32) (k : Nat) :
    (byte w k).toNat = w.toNat / 2 ^ (8 * k) % 256 := by
  rw [byte, UInt8.toNat_ofNat', Nat.shiftRight_eq_div_pow]

theorem toNat_half (w : UInt32) (k : Nat) :
    (half w k).toNat = w.toNat / 2 ^ (16 * k) % 65536 := by
  rw [half, UInt16.toNat_ofNat', Nat.shiftRight_eq_div_pow]

theorem byte_littleEndian (a b c d : UInt8) :
    let w := UInt32.ofNat (littleEndian [a, b, c, d])
    byte w 0 = a ∧ byte w 1 = b ∧ byte w 2 = c ∧ byte w 3 = d := by
  have := a.toNat_lt
  have := b.toNat_lt
  have := c.toNat_lt
  have := d.toNat_lt
  refine ⟨?_, ?_, ?_, ?_⟩
  all_goals
    apply UInt8.toNat_inj.mp
    simp only [toNat_byte, littleEndian, UInt32.toNat_ofNat']
    omega

theorem half_eq (w : UInt32) (k : Nat) (two : k < 2) :
    half w k = UInt16.ofNat
      ((byte w (2 * k)).toNat + 256 * (byte w (2 * k + 1)).toNat) := by
  have bounded := w.toNat_lt
  apply UInt16.toNat_inj.mp
  simp only [toNat_half, toNat_byte, UInt16.toNat_ofNat']
  obtain rfl | rfl : k = 0 ∨ k = 1 := by omega
  · omega
  · omega

theorem littleEndian_lt (bytes : List UInt8) :
    littleEndian bytes < 2 ^ (8 * bytes.length) := by
  induction bytes with
  | nil => decide
  | cons b rest induction =>
      have byte := b.toNat_lt
      have length : 8 * (b :: rest).length = 8 * rest.length + 8 := by
        rw [List.length_cons]
        omega
      rw [littleEndian, length, Nat.pow_add]
      omega

theorem littleEndian_cons (b : UInt8) (rest : List UInt8) :
    littleEndian (b :: rest) % 256 = b.toNat ∧
      littleEndian (b :: rest) / 256 = littleEndian rest := by
  have byte := b.toNat_lt
  rw [littleEndian]
  omega

private theorem pow_bytes_succ (n : Nat) :
    2 ^ (8 * (n + 1)) = 256 * 2 ^ (8 * n) := by
  rw [Nat.mul_succ, Nat.pow_add, Nat.mul_comm]

theorem littleEndian_drop (bytes : List UInt8) (n : Nat) :
    littleEndian (bytes.drop n) = littleEndian bytes / 2 ^ (8 * n) := by
  induction n generalizing bytes with
  | zero => simp
  | succ n induction =>
      cases bytes with
      | nil => simp [littleEndian]
      | cons b rest =>
          rw [List.drop_succ_cons, induction, pow_bytes_succ,
            ← Nat.div_div_eq_div_mul, (littleEndian_cons b rest).2]

theorem littleEndian_take (bytes : List UInt8) (n : Nat) :
    littleEndian (bytes.take n) = littleEndian bytes % 2 ^ (8 * n) := by
  induction n generalizing bytes with
  | zero => simp [Nat.mod_one, littleEndian]
  | succ n induction =>
      cases bytes with
      | nil => simp [littleEndian]
      | cons b rest =>
          obtain ⟨here, next⟩ := littleEndian_cons b rest
          rw [List.take_succ_cons, littleEndian, induction, pow_bytes_succ,
            Nat.mod_mul, here, next]

theorem littleEndian_bytes (w : UInt32) (first count : Nat) :
    littleEndian ((List.range' first count).map (byte w)) =
      w.toNat / 2 ^ (8 * first) % 2 ^ (8 * count) := by
  induction count generalizing first with
  | zero => simp [Nat.mod_one, littleEndian]
  | succ count induction =>
      rw [List.range'_succ, List.map_cons, littleEndian, induction, toNat_byte,
        pow_bytes_succ, pow_bytes_succ, Nat.mul_comm 256 (2 ^ (8 * first)),
        ← Nat.div_div_eq_div_mul, Nat.mod_mul]

end VertexFetch.Word
