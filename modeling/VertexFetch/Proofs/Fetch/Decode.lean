import Mathlib.Algebra.Group.Nat.Defs
import VertexFetch.Fetch.Attributes
import VertexFetch.Proofs.Graph.Holds
import VertexFetch.Proofs.Single
import VertexFetch.Proofs.Word

namespace VertexFetch

/-- What stands for one in a signed fraction. -/
def Strategy.signedUnit : Strategy → Nat → Nat
  | .gather, bits => 2 ^ (bits - 1) - 1
  | .linear, bits => 2 ^ (bits - 1)

namespace Format

def signed (f : Format) (raw : Nat) : Int :=
  (raw : Int).bmod (2 ^ f.channelBits)

/-- The word that a channel stands for. -/
def decode (f : Format) (strategy : Strategy) (raw : Nat) : UInt32 :=
  match f.kind with
  | .unorm =>
      Single.mul (Single.ofInt raw) (Single.reciprocal (2 ^ f.channelBits - 1))
  | .snorm => Single.mul (Single.ofInt (f.signed raw))
      (Single.reciprocal (strategy.signedUnit f.channelBits))
  | .uint => UInt32.ofNat raw
  | .sint => UInt32.ofInt (f.signed raw)
  | .uscaled => Single.ofInt raw
  | .sscaled => Single.ofInt (f.signed raw)
  | .float =>
      if f.channelBits = 16 then Single.ofHalf (UInt16.ofNat raw)
      else UInt32.ofNat raw

def group (f : Format) (c : Fin 4) : Nat :=
  (f.swizzle.get c).toNat * f.channelBits / 32

def channelIn (f : Format) (c : Fin 4) (w : UInt32) : Nat :=
  w.toNat >>> ((f.swizzle.get c).toNat * f.channelBits % 32) % 2 ^ f.channelBits

end Format

namespace Lanes

theorem byte_ofByteFn (f : Fin 32 → UInt8) (j : Fin 32) :
    (ofByteFn f).byte j = f j := by
  have split : j.val = 4 * (j.val / 4) + j.val % 4 := by omega
  have below : j.val / 4 < 8 := by omega
  rw [byte, ofByteFn, get_ofFn]
  obtain ⟨first, second, third, fourth⟩ := Word.byte_littleEndian
    (f ⟨4 * (j.val / 4), by omega⟩) (f ⟨4 * (j.val / 4) + 1, by omega⟩)
    (f ⟨4 * (j.val / 4) + 2, by omega⟩) (f ⟨4 * (j.val / 4) + 3, by omega⟩)
  obtain rest | rest | rest | rest :
      j.val % 4 = 0 ∨ j.val % 4 = 1 ∨ j.val % 4 = 2 ∨ j.val % 4 = 3 := by omega
  · rw [rest]
    exact first.trans (congrArg f (Fin.ext (by simp only; omega)))
  · rw [rest]
    exact second.trans (congrArg f (Fin.ext (by simp only; omega)))
  · rw [rest]
    exact third.trans (congrArg f (Fin.ext (by simp only; omega)))
  · rw [rest]
    exact fourth.trans (congrArg f (Fin.ext (by simp only; omega)))

theorem half_eq (v : Lanes) (j : Fin 16) :
    v.half j = UInt16.ofNat ((v.byte ⟨2 * j.val, by omega⟩).toNat +
      256 * (v.byte ⟨2 * j.val + 1, by omega⟩).toNat) := by
  have word : 2 * j.val / 4 = j.val / 2 ∧ (2 * j.val + 1) / 4 = j.val / 2 := by
    omega
  have place : 2 * j.val % 4 = 2 * (j.val % 2) ∧
      (2 * j.val + 1) % 4 = 2 * (j.val % 2) + 1 := by omega
  simp only [half, byte, word, place]
  exact Word.half_eq _ _ (by omega)

theorem byte_permute_shuffleBytes (v : Lanes) {bytes : ByteSelector}
    {lanes : LaneSelector} {j k : Fin 32} (lane : Fin 8)
    (picks : (lanes.get ⟨j.val / 4, by omega⟩).toNat = lane.val)
    (moves : 0 ≤ bytes.get ⟨(4 * lane.val + j.val % 4) % 16, by omega⟩ ∧
      16 * ((4 * lane.val + j.val % 4) / 16) +
        (bytes.get ⟨(4 * lane.val + j.val % 4) % 16, by omega⟩).toInt.toNat %
        16 = k.val) :
    ((v.shuffleBytes bytes).permute lanes).byte j = v.byte k := by
  have permuted :
      ((v.shuffleBytes bytes).permute lanes).get ⟨j.val / 4, by omega⟩ =
      (v.shuffleBytes bytes).get lane := by
    rw [get_permute, dif_pos (by omega)]
    exact congrArg _ (Fin.ext picks)
  have here : (4 * lane.val + j.val % 4) / 4 = lane.val ∧
      (4 * lane.val + j.val % 4) % 4 = j.val % 4 := by omega
  calc ((v.shuffleBytes bytes).permute lanes).byte j
      = (v.shuffleBytes bytes).byte ⟨4 * lane.val + j.val % 4, by omega⟩ := by
        simp only [byte, permuted, here]
    _ = v.byte k := by
        rw [shuffleBytes, byte_ofByteFn]
        dsimp only
        rw [if_neg (Int8.not_lt.mpr moves.1)]
        exact congrArg v.byte (Fin.ext moves.2)

end Lanes

namespace Isolation

def apply : Isolation → Lanes → Lanes
  | .whole, v => v
  | .cleared bytes, v => v.shuffleBytes bytes
  | .widened bytes lanes widening, v =>
      ((v.shuffleBytes bytes).permute lanes).widen widening

def Fits : Isolation → Prop
  | .widened _ lanes _ => ∀ i, (lanes.get i).toNat < 8
  | _ => True

theorem get_cleared8 (v : Lanes) (k : Fin 4) (i : Fin 8) :
    ((cleared (Selector.zeroExtend (UInt8.ofNat k.val) 8)).apply v).get i =
      UInt32.ofNat (Word.byte (v.get i) k.val).toNat := by
  have bytes :
      ((cleared (Selector.zeroExtend (UInt8.ofNat k.val) 8)).apply v).get i =
      UInt32.ofNat
        (Word.littleEndian [Word.byte (v.get i) k.val, 0, 0, 0]) := by
    revert i
    rw [Lanes.forall_lane]
    obtain rfl | rfl | rfl | rfl : k = 0 ∨ k = 1 ∨ k = 2 ∨ k = 3 := by omega
    all_goals exact ⟨rfl, rfl, rfl, rfl, rfl, rfl, rfl, rfl⟩
  rw [bytes]
  rfl

theorem get_cleared16 (v : Lanes) (k : Fin 2) (i : Fin 8) :
    ((cleared (Selector.zeroExtend (UInt8.ofNat k.val) 16)).apply v).get i =
      UInt32.ofNat (Word.half (v.get i) k.val).toNat := by
  have bytes :
      ((cleared (Selector.zeroExtend (UInt8.ofNat k.val) 16)).apply v).get i =
      UInt32.ofNat (Word.littleEndian
        [Word.byte (v.get i) (2 * k.val), Word.byte (v.get i) (2 * k.val + 1),
          0, 0]) := by
    revert i
    rw [Lanes.forall_lane]
    obtain rfl | rfl : k = 0 ∨ k = 1 := by omega
    all_goals exact ⟨rfl, rfl, rfl, rfl, rfl, rfl, rfl, rfl⟩
  have low := (Word.byte (v.get i) (2 * k.val)).toNat_lt
  have high := (Word.byte (v.get i) (2 * k.val + 1)).toNat_lt
  rw [bytes, Word.half_eq _ _ k.isLt, UInt16.toNat_ofNat']
  simp only [Word.littleEndian]
  congr 1
  change _ + 256 * (_ + 256 * 0) = _
  omega

theorem swizzle_eq (shape : Shape) :
    shape.swizzle = Shape.inOrder ∨ shape.swizzle = #v[2, 1, 0, 3] := by
  cases shape <;> simp [Shape.swizzle]

theorem swizzle_lt (shape : Shape) (c : Fin 4) :
    (shape.swizzle.get c).toNat < 4 := by
  revert c
  obtain plain | reversed := swizzle_eq shape
  · rw [plain]
    decide
  · rw [reversed]
    decide

theorem byte_of_lane (v : Lanes) (i : Fin 8) (k : Fin 4) :
    v.byte ⟨4 * i.val + k.val, by omega⟩ = Word.byte (v.get i) k.val := by
  have here : (4 * i.val + k.val) / 4 = i.val ∧
      (4 * i.val + k.val) % 4 = k.val := by omega
  simp only [Lanes.byte, here]

theorem byte_picked8 (v : Lanes) (shape : Shape) (c : Fin 4) (i : Fin 8) :
    ((v.shuffleBytes (Selector.groupBytes shape.swizzle)).permute
      (Selector.pickBytes (UInt8.ofNat c.val))).byte ⟨i.val, by omega⟩ =
      Word.byte (v.get i) (shape.swizzle.get c).toNat := by
  have picks : ∀ (c : Fin 4) (i : Fin 8),
      ((Selector.pickBytes (UInt8.ofNat c.val)).get
        ⟨i.val / 4, by omega⟩).toNat =
        c.val + 4 * (i.val / 4) := by decide
  have moves : ∀ (c : Fin 4) (i : Fin 8), let from_ :=
    4 * (c.val + 4 * (i.val / 4)) + i.val % 4
      0 ≤ (Selector.groupBytes shape.swizzle).get ⟨from_ % 16, by omega⟩ ∧
        16 * (from_ / 16) +
          ((Selector.groupBytes shape.swizzle).get
            ⟨from_ % 16, by omega⟩).toInt.toNat % 16 =
            4 * i.val + (shape.swizzle.get c).toNat := by
    obtain plain | reversed := swizzle_eq shape
    · rw [plain]
      decide
    · rw [reversed]
      decide
  have inside := swizzle_lt shape c
  have moved := v.byte_permute_shuffleBytes (j := ⟨i.val, by omega⟩)
    (k := ⟨4 * i.val + (shape.swizzle.get c).toNat, by omega⟩)
    ⟨c.val + 4 * (i.val / 4), by omega⟩ (picks c i) (moves c i)
  exact moved.trans (byte_of_lane v i ⟨_, inside⟩)

theorem half_picked16 (v : Lanes) (c : Fin 4) (i : Fin 8) :
    ((v.shuffleBytes Selector.groupHalves).permute
      (Selector.pickHalves (UInt8.ofNat c.val))).half ⟨i.val, by omega⟩ =
      Word.half (v.get i) (c.val % 2) := by
  have picks : ∀ (c : Fin 4) (j : Fin 16),
      ((Selector.pickHalves (UInt8.ofNat c.val)).get
        ⟨j.val / 4, by omega⟩).toNat =
        2 * (c.val % 2) + j.val / 4 % 2 + 4 * (j.val / 8) := by decide
  have moves : ∀ (c : Fin 4) (j : Fin 16),
      let from_ :=
        4 * (2 * (c.val % 2) + j.val / 4 % 2 + 4 * (j.val / 8)) + j.val % 4
      0 ≤ Selector.groupHalves.get ⟨from_ % 16, by omega⟩ ∧
        16 * (from_ / 16) +
          (Selector.groupHalves.get ⟨from_ % 16, by omega⟩).toInt.toNat % 16 =
          4 * (j.val / 2) + (2 * (c.val % 2) + j.val % 2) := by decide
  have byte : ∀ j : Fin 16, ((v.shuffleBytes Selector.groupHalves).permute
      (Selector.pickHalves (UInt8.ofNat c.val))).byte ⟨j.val, by omega⟩ =
        Word.byte (v.get ⟨j.val / 2, by omega⟩)
          (2 * (c.val % 2) + j.val % 2) := by
    intro j
    have moved := v.byte_permute_shuffleBytes (j := ⟨j.val, by omega⟩)
      (k := ⟨4 * (j.val / 2) + (2 * (c.val % 2) + j.val % 2), by omega⟩)
      ⟨2 * (c.val % 2) + j.val / 4 % 2 + 4 * (j.val / 8), by omega⟩ (picks c j)
        (moves c j)
    exact moved.trans
      (byte_of_lane v ⟨j.val / 2, by omega⟩
        ⟨2 * (c.val % 2) + j.val % 2, by omega⟩)
  have low := byte ⟨2 * i.val, by omega⟩
  have high := byte ⟨2 * i.val + 1, by omega⟩
  have place : 2 * i.val / 2 = i.val ∧ (2 * i.val + 1) / 2 = i.val ∧
      2 * i.val % 2 = 0 ∧
      (2 * i.val + 1) % 2 = 1 := by omega
  simp only [place] at low high
  rw [Lanes.half_eq, low, high, Word.half_eq _ _ (Nat.mod_lt _ (by decide)),
    Nat.add_zero]

end Isolation

def Conversion.Finite (c : Conversion) : Prop :=
  ∀ f factor, c = .scale f factor → Single.IsScale factor

namespace Format

variable {f : Format}

theorem channelIn_of_eight (eight : f.channelBits = 8) (c : Fin 4)
    (w : UInt32) :
    f.channelIn c w = (Word.byte w (f.swizzle.get c).toNat).toNat := by
  have inside : (f.swizzle.get c).toNat < 4 := Isolation.swizzle_lt f.shape c
  have place : (f.swizzle.get c).toNat * 8 % 32 =
      8 * (f.swizzle.get c).toNat := by omega
  rw [channelIn, eight, Word.toNat_byte, Nat.shiftRight_eq_div_pow, place]
  rfl

theorem swizzle_of_ne_eight (wide : f.channelBits ≠ 8) (c : Fin 4) :
    (f.swizzle.get c).toNat = c.val := by
  have each : ∀ shape : Shape, shape.channelBits ≠ 8 →
      ∀ c : Fin 4, (shape.swizzle.get c).toNat = c.val := by
    intro shape wide
    cases shape <;> first | exact absurd rfl wide | decide
  exact each f.shape wide c

theorem channelIn_of_sixteen (sixteen : f.channelBits = 16) (c : Fin 4)
    (w : UInt32) : f.channelIn c w = (Word.half w (c.val % 2)).toNat := by
  have place : c.val * 16 % 32 = 16 * (c.val % 2) := by omega
  rw [channelIn, swizzle_of_ne_eight (by omega), sixteen, Word.toNat_half,
    Nat.shiftRight_eq_div_pow, place]
  rfl

theorem channelIn_of_thirtyTwo (thirtyTwo : f.channelBits = 32) (c : Fin 4)
    (w : UInt32) : f.channelIn c w = w.toNat := by
  have place : c.val * 32 % 32 = 0 := by omega
  rw [channelIn, swizzle_of_ne_eight (by omega), thirtyTwo, place]
  exact Nat.mod_eq_of_lt w.toNat_lt

end Format

namespace Conversion

variable {f : Format} {conversion : Conversion}

theorem isScale_one : Single.IsScale Single.one :=
  ⟨by decide, by decide, by decide⟩

theorem isScale_reciprocal {n : Nat}
    (listed : n ∈ [127, 128, 255, 32767, 32768, 65535]) :
    Single.IsScale (Single.reciprocal n) := by
  have each : ∀ n ∈ [127, 128, 255, 32767, 32768, 65535],
      Single.isNaN (Single.reciprocal n) = false ∧
        Single.isInfinite (Single.reciprocal n) = false ∧
        Single.isZero (Single.reciprocal n) = false := by decide
  obtain ⟨number, finite, nonzero⟩ := each n listed
  exact ⟨number, finite, nonzero⟩

theorem isScale_unit {bits : Nat} (narrow : bits = 8 ∨ bits = 16)
    (strategy : Strategy) : Single.IsScale (Single.reciprocal (2 ^ bits - 1)) ∧
      Single.IsScale (Single.reciprocal (strategy.signedUnit bits)) := by
  rcases narrow with rfl | rfl
  · cases strategy with
    | gather =>
        exact ⟨isScale_reciprocal (by decide), isScale_reciprocal (by decide)⟩
    | linear =>
        exact ⟨isScale_reciprocal (by decide), isScale_reciprocal (by decide)⟩
  · cases strategy with
    | gather =>
        exact ⟨isScale_reciprocal (by decide), isScale_reciprocal (by decide)⟩
    | linear =>
        exact ⟨isScale_reciprocal (by decide), isScale_reciprocal (by decide)⟩

theorem finite_keep : keep.Finite := by
  intro f factor same
  cases same

theorem finite_round (f : Rounding) : (round f).Finite := by
  intro f factor same
  cases same

theorem finite_scale {f : Rounding} {factor : UInt32}
    (usable : Single.IsScale factor) : (scale f factor).Finite := by
  intro f factor same
  cases same
  exact usable

variable {f : Format} {conversion : Conversion}

theorem gathered_of_zero
    (made : gathered .zero f.kind.scaling f.channelBits = .ok conversion)
    (narrow : f.channelBits = 8 ∨ f.channelBits = 16)
    (zero : f.kind.extension = .zero) (raw : Nat)
    (small : raw < 2 ^ f.channelBits) :
    conversion.Finite ∧
      conversion.apply (UInt32.ofNat raw) = f.decode .gather raw := by
  have below : raw < 2 ^ 16 := by
    rcases narrow with eight | sixteen
    · rw [eight] at small
      omega
    · rwa [sixteen] at small
  have unsigned : (UInt32.ofNat raw).toNat = raw :=
    UInt32.toNat_ofNat_of_lt' (Nat.lt_trans below (by decide))
  have signed : (UInt32.ofNat raw).toInt32.toInt = raw := by
    rw [Word.toInt_toInt32_of_lt (by rw [unsigned]; omega), unsigned]
  cases kind : f.kind with
  | unorm =>
      have same : conversion =
          scale .signed (Single.reciprocal (2 ^ f.channelBits - 1)) := by
        rw [kind] at made
        rcases narrow with bits | bits
        · rw [bits] at made ⊢
          exact (Except.ok.inj made).symm
        · rw [bits] at made ⊢
          exact (Except.ok.inj made).symm
      rw [same]
      refine ⟨finite_scale (isScale_unit narrow .gather).1, ?_⟩
      simp only [apply, Rounding.apply, signed, Format.decode, kind]
  | uint =>
      rw [kind] at made
      obtain rfl : keep = conversion := Except.ok.inj made
      refine ⟨finite_keep, ?_⟩
      simp only [apply, Format.decode, kind]
  | uscaled =>
      rw [kind] at made
      obtain rfl : scale .unsigned Single.one = conversion := Except.ok.inj made
      refine ⟨finite_scale isScale_one, ?_⟩
      simp only [apply, Rounding.apply, unsigned, Format.decode, kind]
      exact Single.mul_one (Single.isNaN_ofInt _)
  | snorm => simp [kind, ChannelKind.extension] at zero
  | sint => simp [kind, ChannelKind.extension] at zero
  | sscaled => simp [kind, ChannelKind.extension] at zero
  | float => simp [kind, ChannelKind.extension] at zero

theorem gathered_of_sign
    (made : gathered .sign f.kind.scaling f.channelBits = .ok conversion)
    (narrow : f.channelBits = 8 ∨ f.channelBits = 16)
    (sign : f.kind.extension = .sign) (raw : Nat) (w : UInt32)
    (signed : w.toInt32.toInt = f.signed raw) :
    conversion.Finite ∧ conversion.apply w = f.decode .gather raw := by
  cases kind : f.kind with
  | snorm =>
      have same : conversion =
          scale .signed
            (Single.reciprocal (Strategy.gather.signedUnit f.channelBits)) := by
        rw [kind] at made
        rcases narrow with bits | bits
        · rw [bits] at made ⊢
          exact (Except.ok.inj made).symm
        · rw [bits] at made ⊢
          exact (Except.ok.inj made).symm
      rw [same]
      refine ⟨finite_scale (isScale_unit narrow .gather).2, ?_⟩
      simp only [apply, Rounding.apply, signed, Format.decode, kind]
  | sint =>
      rw [kind] at made
      obtain rfl : keep = conversion := Except.ok.inj made
      refine ⟨finite_keep, ?_⟩
      simp only [apply, Format.decode, kind, ← signed]
      exact (Word.ofInt_toInt _).symm
  | sscaled =>
      rw [kind] at made
      obtain rfl : scale .signed Single.one = conversion := Except.ok.inj made
      refine ⟨finite_scale isScale_one, ?_⟩
      simp only [apply, Rounding.apply, signed, Format.decode, kind]
      exact Single.mul_one (Single.isNaN_ofInt _)
  | unorm => simp [kind, ChannelKind.extension] at sign
  | uint => simp [kind, ChannelKind.extension] at sign
  | uscaled => simp [kind, ChannelKind.extension] at sign
  | float => simp [kind, ChannelKind.extension] at sign

end Conversion

structure Channel.Decodes (channel : Channel) (f : Format) (c : Fin 4) :
    Prop where
  group : channel.group = f.group c
  fits : channel.isolation.Fits
  finite : channel.conversion.Finite
  decodes : ∀ v i, channel.conversion.apply
    ((channel.isolation.apply v).get i) =
    f.decode .gather (f.channelIn c (v.get i))

namespace Format

variable {f : Format} {c : Fin 4} {conversion : Conversion}

theorem extension_of_eight (eight : f.channelBits = 8)
    (plain : f.kind.extension ≠ .sign) : f.kind.extension = .zero := by
  have each : ∀ shape : Shape, shape.channelBits = 8 → ∀ kind ∈ shape.kinds,
      kind.extension ≠ .sign → kind.extension = .zero := by
    intro shape eight
    cases shape <;> first | exact absurd eight (by decide) | decide
  exact each f.shape eight f.kind f.listed plain

theorem extension_of_not_float (other : f.kind ≠ .float)
    (plain : f.kind.extension ≠ .sign) : f.kind.extension = .zero := by
  cases kind : f.kind <;> simp_all [ChannelKind.extension]

theorem group_of_sixteen (sixteen : f.channelBits = 16) :
    f.group c = c.val / 2 := by
  rw [Format.group, sixteen, swizzle_of_ne_eight (by omega)]
  omega

theorem group_of_thirtyTwo (wide : f.channelBits = 32) : f.group c = c.val := by
  rw [Format.group, wide, swizzle_of_ne_eight (by omega)]
  omega

private theorem eight_decodes (eight : f.channelBits = 8)
    (made : Conversion.gathered f.kind.extension f.kind.scaling 8 =
      .ok conversion) :
    Channel.Decodes
      ⟨0,
        if f.kind.extension = .sign then
          .widened (Selector.groupBytes f.swizzle)
            (Selector.pickBytes (UInt8.ofNat c.val)) .sign8
        else .cleared (Selector.zeroExtend (f.swizzle.get c) 8),
        conversion⟩ f c := by
  have inside : (f.swizzle.get c).toNat < 4 := Isolation.swizzle_lt f.shape c
  have group : 0 = f.group c := by
    rw [Format.group, eight]
    omega
  have picks : ∀ c : Fin 4,
      ∀ i, ((Selector.pickBytes (UInt8.ofNat c.val)).get i).toNat < 8 := by
    decide
  by_cases sign : f.kind.extension = .sign
  · rw [if_pos sign]
    rw [sign, ← eight] at made
    have signed (w : UInt32) :=
      Conversion.gathered_of_sign made (.inl eight) sign
      (f.channelIn c w) (Word.signExtend8 (Word.byte w (f.swizzle.get c).toNat))
        (by
        rw [Word.toInt_signExtend8, channelIn_of_eight eight, Format.signed,
          eight])
    refine ⟨group, picks c, (signed 0).1, ?_⟩
    intro v i
    refine Eq.trans (congrArg conversion.apply ?_) (signed (v.get i)).2
    rw [Isolation.apply, Lanes.widen, Lanes.get_ofFn]
    exact congrArg Word.signExtend8 (Isolation.byte_picked8 v f.shape c i)
  · rw [if_neg sign]
    have zero := extension_of_eight eight sign
    rw [zero, ← eight] at made
    have plain (w : UInt32) :=
      Conversion.gathered_of_zero made (.inl eight) zero
      (f.channelIn c w) (Nat.mod_lt _ (Nat.two_pow_pos _))
    refine ⟨group, trivial, (plain 0).1, ?_⟩
    intro v i
    refine Eq.trans (congrArg conversion.apply ?_) (plain (v.get i)).2
    have cleared := Isolation.get_cleared8 v ⟨_, inside⟩ i
    rw [UInt8.ofNat_toNat] at cleared
    rw [cleared, channelIn_of_eight eight]

private theorem sixteen_decodes (sixteen : f.channelBits = 16)
    (other : f.kind ≠ .float)
    (made : Conversion.gathered f.kind.extension f.kind.scaling 16 =
      .ok conversion) :
    Channel.Decodes
      ⟨c.val / 2,
        if f.kind.extension = .sign then
          .widened Selector.groupHalves
            (Selector.pickHalves (UInt8.ofNat c.val)) .sign16
        else .cleared (Selector.zeroExtend (UInt8.ofNat c.val % 2) 16),
        conversion⟩ f c := by
  have picks : ∀ c : Fin 4,
      ∀ i, ((Selector.pickHalves (UInt8.ofNat c.val)).get i).toNat < 8 := by
    decide
  by_cases sign : f.kind.extension = .sign
  · rw [if_pos sign]
    rw [sign, ← sixteen] at made
    have signed (w : UInt32) :=
      Conversion.gathered_of_sign made (.inr sixteen) sign (f.channelIn c w)
        (Word.signExtend16 (Word.half w (c.val % 2))) (by
        rw [Word.toInt_signExtend16, channelIn_of_sixteen sixteen,
          Format.signed, sixteen])
    refine ⟨(group_of_sixteen sixteen).symm, picks c, (signed 0).1, ?_⟩
    intro v i
    refine Eq.trans (congrArg conversion.apply ?_) (signed (v.get i)).2
    rw [Isolation.apply, Lanes.widen, Lanes.get_ofFn]
    exact congrArg Word.signExtend16 (Isolation.half_picked16 v c i)
  · rw [if_neg sign]
    have zero := extension_of_not_float other sign
    rw [zero, ← sixteen] at made
    have plain (w : UInt32) :=
      Conversion.gathered_of_zero made (.inr sixteen) zero (f.channelIn c w)
        (Nat.mod_lt _ (Nat.two_pow_pos _))
    refine ⟨(group_of_sixteen sixteen).symm, trivial, (plain 0).1, ?_⟩
    intro v i
    refine Eq.trans (congrArg conversion.apply ?_) (plain (v.get i)).2
    have low : ∀ c : Fin 4, UInt8.ofNat c.val % 2 =
        UInt8.ofNat (c.val % 2) := by decide
    rw [low, Isolation.get_cleared16 v ⟨c.val % 2, Nat.mod_lt _ (by decide)⟩ i,
      channelIn_of_sixteen sixteen]

private theorem half_decodes (float : f.kind = .float)
    (sixteen : f.channelBits = 16) :
    Channel.Decodes ⟨c.val / 2, .widened Selector.groupHalves
      (Selector.pickHalves (UInt8.ofNat c.val)) .half, .keep⟩ f c := by
  have picks : ∀ c : Fin 4,
      ∀ i, ((Selector.pickHalves (UInt8.ofNat c.val)).get i).toNat < 8 := by
    decide
  refine ⟨(group_of_sixteen sixteen).symm, picks c, Conversion.finite_keep, ?_⟩
  intro v i
  simp only [Conversion.apply, Isolation.apply, Lanes.widen, Lanes.get_ofFn,
    Format.decode, float,
      sixteen, if_true, Isolation.half_picked16, channelIn_of_sixteen sixteen,
      UInt16.ofNat_toNat]

private theorem whole_decodes (wide : f.channelBits = 32)
    (unscaled : f.kind.scaling = .none) :
    Channel.Decodes ⟨c.val, .whole, .keep⟩ f c := by
  refine ⟨(group_of_thirtyTwo wide).symm, trivial, Conversion.finite_keep, ?_⟩
  intro v i
  simp only [Conversion.apply, Isolation.apply, channelIn_of_thirtyTwo wide]
  cases kind : f.kind with
  | uint => simp only [Format.decode, kind, UInt32.ofNat_toNat]
  | sint =>
      simp only [Format.decode, kind, Format.signed, wide]
      exact (Word.ofInt_bmod _).symm
  | float =>
      simp only [Format.decode, kind, wide, UInt32.ofNat_toNat]
      rfl
  | unorm => simp [kind, ChannelKind.scaling] at unscaled
  | snorm => simp [kind, ChannelKind.scaling] at unscaled
  | uscaled => simp [kind, ChannelKind.scaling] at unscaled
  | sscaled => simp [kind, ChannelKind.scaling] at unscaled

theorem channel_decodes {channel : Channel} (made : f.channel c = .ok channel) :
    channel.Decodes f c := by
  unfold Format.channel at made
  dsimp only at made
  split at made
  next float wide =>
    cases made
    exact whole_decodes wide (by rw [float]; rfl)
  next float sixteen =>
    cases made
    exact half_decodes float sixteen
  next => cases made
  next eight _ =>
    obtain ⟨conversion, gathered, same⟩ := bind_eq_ok.mp made
    cases same
    exact eight_decodes eight gathered
  next sixteen other =>
    obtain ⟨conversion, gathered, same⟩ := bind_eq_ok.mp made
    cases same
    exact sixteen_decodes sixteen other gathered
  next wide _ =>
    split at made
    next unscaled =>
      cases made
      exact whole_decodes wide unscaled
    next => cases made
  next => cases made

end Format

namespace Fetch

variable {f : Format}

theorem extend_of_unsigned (unsigned : f.kind.isSigned = false) (raw : UInt32) :
    (channelLoad f).extend raw = raw := by
  simp [ChannelLoad.extend, channelLoad, unsigned]

theorem channelBits_cases (f : Format) :
    f.channelBits = 8 ∨ f.channelBits = 16 ∨ f.channelBits = 32 := by
  have each : ∀ shape : Shape,
      shape.channelBits = 8 ∨ shape.channelBits = 16 ∨
      shape.channelBits = 32 := by
    intro shape
    cases shape <;> decide
  exact each f.shape

theorem extend_of_signed (signed : f.kind.isSigned = true) (raw : UInt32) :
    ((channelLoad f).extend raw).toInt32.toInt = f.signed raw.toNat := by
  rcases channelBits_cases f with eight | sixteen | wide
  · have extended :
        (channelLoad f).extend raw = Word.signExtend8 (Word.byte raw 0) := by
      simp [ChannelLoad.extend, channelLoad, signed, eight]
    have low : raw.toNat / 2 ^ (8 * 0) = raw.toNat := Nat.div_one _
    rw [extended, Word.toInt_signExtend8, Word.toNat_byte, Format.signed, eight,
      low, Int.natCast_emod]
    exact Int.emod_bmod _ 256
  · have extended :
        (channelLoad f).extend raw = Word.signExtend16 (Word.half raw 0) := by
      simp [ChannelLoad.extend, channelLoad, signed, sixteen]
    have low : raw.toNat / 2 ^ (16 * 0) = raw.toNat := Nat.div_one _
    rw [extended, Word.toInt_signExtend16, Word.toNat_half, Format.signed,
      sixteen, low, Int.natCast_emod]
    exact Int.emod_bmod _ 65536
  · have extended : (channelLoad f).extend raw = raw := by
      simp [ChannelLoad.extend, channelLoad, wide]
    rw [extended, Word.toInt_toInt32, Format.signed, wide]

theorem linear_decodes {conversion : Conversion}
    (made : Conversion.linear f.kind f.channelBits = .ok conversion)
    (raw : UInt32) (small : raw.toNat < 2 ^ f.channelBits) :
    conversion.Finite ∧
      conversion.apply ((channelLoad f).extend raw) =
        f.decode .linear raw.toNat := by
  cases kind : f.kind with
  | unorm =>
      rw [kind] at made
      have same : (f.channelBits = 8 ∨ f.channelBits = 16) ∧
          conversion = .scale .signed
            (Single.reciprocal (2 ^ f.channelBits - 1)) := by
        rcases channelBits_cases f with bits | bits | bits
        · rw [bits] at made ⊢
          exact ⟨.inl rfl, (Except.ok.inj made).symm⟩
        · rw [bits] at made ⊢
          exact ⟨.inr rfl, (Except.ok.inj made).symm⟩
        · rw [bits] at made
          cases made
      obtain ⟨narrow, rfl⟩ := same
      have below : raw.toNat < 2 ^ 31 :=
        Nat.lt_of_lt_of_le small (Nat.pow_le_pow_right (by decide) (by omega))
      refine ⟨Conversion.finite_scale
        (Conversion.isScale_unit narrow .linear).1, ?_⟩
      rw [extend_of_unsigned (by rw [kind]; rfl)]
      simp only [Conversion.apply, Rounding.apply,
        Word.toInt_toInt32_of_lt below, Format.decode, kind]
  | snorm =>
      rw [kind] at made
      have same : (f.channelBits = 8 ∨ f.channelBits = 16) ∧ conversion =
          .scale .signed
            (Single.reciprocal (Strategy.linear.signedUnit f.channelBits)) := by
        rcases channelBits_cases f with bits | bits | bits
        · rw [bits] at made ⊢
          exact ⟨.inl rfl, (Except.ok.inj made).symm⟩
        · rw [bits] at made ⊢
          exact ⟨.inr rfl, (Except.ok.inj made).symm⟩
        · rw [bits] at made
          cases made
      obtain ⟨narrow, rfl⟩ := same
      have signed := extend_of_signed (f := f) (by rw [kind]; rfl) raw
      refine ⟨Conversion.finite_scale
        (Conversion.isScale_unit narrow .linear).2, ?_⟩
      simp only [Conversion.apply, Rounding.apply, signed, Format.decode, kind]
  | uint =>
      rw [kind] at made
      obtain rfl : Conversion.keep = conversion := Except.ok.inj made
      refine ⟨Conversion.finite_keep, ?_⟩
      rw [extend_of_unsigned (by rw [kind]; rfl)]
      simp only [Conversion.apply, Format.decode, kind, UInt32.ofNat_toNat]
  | sint =>
      rw [kind] at made
      obtain rfl : Conversion.keep = conversion := Except.ok.inj made
      refine ⟨Conversion.finite_keep, ?_⟩
      have signed := extend_of_signed (f := f) (by rw [kind]; rfl) raw
      simp only [Conversion.apply, Format.decode, kind, ← signed]
      exact (Word.ofInt_toInt _).symm
  | uscaled =>
      rw [kind] at made
      obtain rfl : Conversion.round .unsigned = conversion := Except.ok.inj made
      refine ⟨Conversion.finite_round _, ?_⟩
      rw [extend_of_unsigned (by rw [kind]; rfl)]
      simp only [Conversion.apply, Rounding.apply, Format.decode, kind]
  | sscaled =>
      rw [kind] at made
      obtain rfl : Conversion.round .signed = conversion := Except.ok.inj made
      refine ⟨Conversion.finite_round _, ?_⟩
      have signed := extend_of_signed (f := f) (by rw [kind]; rfl) raw
      simp only [Conversion.apply, Rounding.apply, signed, Format.decode, kind]
  | float =>
      rw [kind] at made
      rcases channelBits_cases f with eight | sixteen | wide
      · rw [eight] at made
        cases made
      · rw [sixteen] at made
        cases made
      · rw [wide] at made
        obtain rfl : Conversion.keep = conversion := Except.ok.inj made
        refine ⟨Conversion.finite_keep, ?_⟩
        rw [extend_of_unsigned (by rw [kind]; rfl)]
        simp only [Conversion.apply, Format.decode, kind, wide,
          UInt32.ofNat_toNat]
        rfl

end Fetch
end VertexFetch
