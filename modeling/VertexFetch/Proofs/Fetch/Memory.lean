import VertexFetch.Proofs.Call
import VertexFetch.Proofs.Fetch.Loading

/-! Where an attribute lies in the data of a stream. The tests that a fetch
makes come out true for just the vertices whose element lies in the data,
although they are made on words that may wrap. -/

namespace VertexFetch

namespace Stream

variable {data : Array UInt8} {pitch : UInt32}

private theorem toNat_clamped (data : Array UInt8) :
    (UInt32.ofNat (min data.size 0xffffffff)).toNat =
      min data.size 0xffffffff := by
  rw [UInt32.toNat_ofNat']
  omega

theorem toNat_size_ofData :
    (ofData data pitch).size.toNat = min data.size 0xffffffff := by
  have size : (ofData data pitch).size =
      UInt32.ofNat (min data.size 0xffffffff) := by
    unfold ofData
    split <;> rfl
  rw [size, toNat_clamped]

theorem pitch_ofData : (ofData data pitch).pitch = pitch := by
  unfold ofData
  split <;> rfl

theorem data_ofData : (ofData data pitch).data = data := by
  unfold ofData
  split <;> rfl

theorem maxVertex_mul_pitch_add :
    (ofData data pitch).maxVertex.toNat * pitch.toNat +
      (ofData data pitch).partialSize.toNat =
      (ofData data pitch).size.toNat := by
  unfold ofData
  split
  next zero => rw [zero, UInt32.toNat_zero, Nat.mul_zero, Nat.zero_add]
  next =>
    rw [UInt32.toNat_div, UInt32.toNat_mod]
    exact Nat.div_add_mod' _ pitch.toNat

/-- No vertex after the whole ones and a part of one has bytes below the
size. -/
theorem le_maxVertex {vertex : Nat} (counted : vertex < 2 ^ 32)
    (begins : vertex * pitch.toNat < (ofData data pitch).size.toNat) :
    vertex ≤ (ofData data pitch).maxVertex.toNat := by
  unfold ofData at begins ⊢
  split at begins
  next zero =>
    have nonempty : UInt32.ofNat (min data.size 0xffffffff) ≠ 0 := by
      intro empty
      rw [empty] at begins
      exact Nat.not_lt_zero _ begins
    simp only [if_pos zero, if_neg nonempty]
    exact Nat.le_of_lt_succ counted
  next pitched =>
    have positive : 0 < pitch.toNat := Nat.pos_of_ne_zero fun zero =>
      pitched (UInt32.toNat_inj.mp zero)
    simp only [if_neg pitched]
    rw [UInt32.toNat_div]
    exact (Nat.le_div_iff_mul_le positive).mpr (Nat.le_of_lt begins)

end Stream

namespace Fetch

variable {a : Attribute} {data : Array UInt8} {pitch current start : UInt32}

theorem bytes_pos (f : Format) : 0 < f.bytes := by
  have each : ∀ shape : Shape, 0 < shape.channels * shape.channelBits / 8 := by
    intro shape
    cases shape <;> decide
  exact each f.shape

theorem toNat_steppedOffset (a : Attribute) (field : Stream.Field → UInt32)
    (current start : UInt32) :
    (steppedOffset a field current start).toNat =
      ((start.toNat + current.toNat) * (field .pitch).toNat + a.offset.toNat) %
        2 ^ 32 := by
  rw [steppedOffset, UInt32.toNat_add, UInt32.toNat_add, UInt32.toNat_mul,
    UInt32.toNat_mul, Nat.add_mul]
  omega

/-- The bytes left hold the attribute, by a difference that may wrap and is read
as signed. -/
def Reaches (a : Attribute) (rest : UInt32) : Prop :=
  a.format.bytes ≤ (rest - a.offset).toNat ∧ (rest - a.offset).toNat < 2 ^ 31

theorem reaches_iff {rest : UInt32} :
    Word.ltSigned (UInt32.ofNat a.format.bytes - 1) (rest - a.offset) = true ↔
      Reaches a rest := by
  have positive := bytes_pos a.format
  have few := bytes_le_sixteen a.format
  have lastByte : (UInt32.ofNat a.format.bytes - 1).toNat =
      a.format.bytes - 1 := by
    rw [UInt32.toNat_sub, UInt32.toNat_ofNat', UInt32.toNat_one]
    omega
  rw [Word.ltSigned_of_lt (by omega), lastByte, Reaches]
  omega

theorem reaches_of_lt (near : a.offset.toNat < 2 ^ 31) {rest : UInt32}
    (small : rest.toNat < 2 ^ 31) :
    Reaches a rest ↔ a.offset.toNat + a.format.bytes ≤ rest.toNat := by
  have positive := bytes_pos a.format
  rw [Reaches, UInt32.toNat_sub]
  omega

theorem vertexInside_cases {field : Stream.Field → UInt32} :
    vertexInside a field current start = true ↔
      (start.toNat ≤ (field .maxVertex).toNat ∧
        (start.toNat + current.toNat < (field .maxVertex).toNat ∨
          start.toNat + current.toNat = (field .maxVertex).toNat ∧
            Reaches a (field .partialSize))) ∨
      ((field .maxVertex).toNat < start.toNat ∧ current.toNat = 0 ∧
        Reaches a 0) := by
  have startBound := start.toNat_lt
  have wholeBound := (field .maxVertex).toNat_lt
  unfold vertexInside
  by_cases past : field .maxVertex < start
  · simp only [if_pos past]
    have after := UInt32.lt_iff_toNat_lt.mp past
    split
    next first =>
      rw [reaches_iff, first]
      constructor
      · exact fun reaches => .inr ⟨after, UInt32.toNat_zero, reaches⟩
      · rintro (⟨reached, _⟩ | ⟨_, _, reaches⟩)
        · exact absurd after (Nat.not_lt.mpr reached)
        · exact reaches
    next other =>
      have other : current.toNat ≠ 0 :=
        fun same => other (UInt32.toNat_inj.mp same)
      simp only [decide_eq_true_eq, UInt32.lt_iff_toNat_lt, UInt32.toNat_zero]
      omega
  · simp only [if_neg past]
    have reached : start.toNat ≤ (field .maxVertex).toNat :=
      Nat.le_of_not_lt fun after => past (UInt32.lt_iff_toNat_lt.mpr after)
    have left : (field .maxVertex - start).toNat =
        (field .maxVertex).toNat - start.toNat := by
      rw [UInt32.toNat_sub]
      omega
    split
    next last =>
      rw [reaches_iff, last, left, Nat.add_sub_cancel' reached]
      constructor
      · exact fun reaches => .inl ⟨reached, .inr ⟨rfl, reaches⟩⟩
      · rintro (⟨_, before | ⟨_, reaches⟩⟩ | ⟨after, _⟩)
        · exact absurd before (Nat.lt_irrefl _)
        · exact reaches
        · exact absurd reached (Nat.not_le.mpr after)
    next other =>
      have other : current.toNat ≠ (field .maxVertex).toNat - start.toNat := by
        intro same
        exact other (UInt32.toNat_inj.mp (same.trans left.symm))
      rw [decide_eq_true_eq, UInt32.lt_iff_toNat_lt, left]
      omega

theorem vertexInside_iff {field : Stream.Field → UInt32}
    (near : a.offset.toNat < 2 ^ 31)
    (small : (field .partialSize).toNat < 2 ^ 31) :
    vertexInside a field current start = true ↔
      start.toNat + current.toNat < (field .maxVertex).toNat ∨
        start.toNat + current.toNat = (field .maxVertex).toNat ∧
          a.offset.toNat + a.format.bytes ≤ (field .partialSize).toNat := by
  have positive := bytes_pos a.format
  rw [vertexInside_cases, reaches_of_lt near small,
    reaches_of_lt near (by decide), UInt32.toNat_zero]
  omega

/-- The test of a gathered lane. No word that it is made on wraps if the data is
below two gigabytes, and a word that wraps makes it fail. -/
theorem steppedInside_iff (small : data.size < 2 ^ 31) :
    steppedInside a (Stream.ofData data pitch).field current start = true ↔
      start.toNat + current.toNat < 2 ^ 32 ∧
        (start.toNat + current.toNat) * pitch.toNat + a.offset.toNat +
          a.format.bytes ≤
          data.size := by
  have size : ((Stream.ofData data pitch).field .size).toNat = data.size :=
    Stream.toNat_size_ofData.trans (Nat.min_eq_left (by omega))
  have parts : ((Stream.ofData data pitch).field .maxVertex).toNat *
      pitch.toNat + ((Stream.ofData data pitch).field .partialSize).toNat =
        data.size :=
    Stream.maxVertex_mul_pitch_add.trans size
  have wholeBound := ((Stream.ofData data pitch).field .maxVertex).toNat_lt
  have positive := bytes_pos a.format
  have offset :=
    toNat_steppedOffset a (Stream.ofData data pitch).field current start
  rw [show (Stream.ofData data pitch).field .pitch =
    pitch from Stream.pitch_ofData] at offset
  rw [steppedInside, Bool.and_eq_true, Bool.and_eq_true, decide_eq_true_eq,
    endsInside_iff, size, UInt32.le_iff_toNat_le, offset]
  generalize vertexEq : start.toNat + current.toNat = vertex
  rw [vertexEq] at offset
  constructor
  · rintro ⟨vertexTest, above, ends⟩
    have near : a.offset.toNat < 2 ^ 31 := by omega
    rw [vertexInside_iff near (by omega), vertexEq] at vertexTest
    rcases vertexTest with before | ⟨last, fits⟩
    · have begins := Nat.mul_le_mul_right pitch.toNat (Nat.le_of_lt before)
      rw [Nat.mod_eq_of_lt (by omega)] at ends
      exact ⟨by omega, ends⟩
    · rw [last]
      exact ⟨wholeBound, by omega⟩
  · rintro ⟨counted, ends⟩
    have reached : vertex ≤
        ((Stream.ofData data pitch).field .maxVertex).toNat :=
      Stream.le_maxVertex counted (Nat.lt_of_lt_of_eq (by omega) size.symm)
    rw [Nat.mod_eq_of_lt (by omega), vertexInside_iff (by omega) (by omega),
      vertexEq]
    refine ⟨?_, by omega, ends⟩
    rcases Nat.lt_or_eq_of_le reached with before | last
    · exact .inl before
    · rw [last] at ends
      exact .inr ⟨last, by omega⟩

/-- The test of a loaded lane. The vertex does not wrap, and so begins at a byte
that no word wraps at, since no vertex that may be read begins after the
size. -/
theorem indexedInside_iff {index : UInt32} :
    indexedInside a (Stream.ofData data pitch).field index start = true ↔
      start.toNat + index.toNat < 2 ^ 32 ∧
        (start.toNat + index.toNat) * pitch.toNat + a.offset.toNat +
          a.format.bytes ≤
          min data.size 0xffffffff := by
  have size : ((Stream.ofData data pitch).field .size).toNat =
      min data.size 0xffffffff :=
    Stream.toNat_size_ofData
  have same : (Stream.ofData data pitch).field .pitch = pitch :=
    Stream.pitch_ofData
  have positive := bytes_pos a.format
  have startBound := start.toNat_lt
  have offsetBound := a.offset.toNat_lt
  have vertexEq : (index + start).toNat =
      (start.toNat + index.toNat) % 2 ^ 32 := by
    rw [UInt32.toNat_add, Nat.add_comm]
  simp only [indexedInside, indexedOffset, same, Bool.and_eq_true,
    decide_eq_true_eq, endsInside_iff, size, UInt32.le_iff_toNat_le,
    UInt32.toNat_add ((index + start) * pitch),
    UInt32.toNat_mul (index + start)]
  constructor
  · intro inside
    obtain ⟨ahead, reached, above, ends⟩ := inside
    have counted : start.toNat + index.toNat < 2 ^ 32 := by omega
    have begins : (index + start).toNat * pitch.toNat ≤
        min data.size 0xffffffff := by
      have whole := Nat.mul_le_mul_right pitch.toNat reached
      have parts : ((Stream.ofData data pitch).field .maxVertex).toNat *
          pitch.toNat + ((Stream.ofData data pitch).field .partialSize).toNat =
            min data.size 0xffffffff :=
        Stream.maxVertex_mul_pitch_add.trans Stream.toNat_size_ofData
      omega
    rw [Nat.mod_eq_of_lt counted] at vertexEq
    rw [vertexEq] at begins above ends
    exact ⟨counted, by omega⟩
  · intro inside
    obtain ⟨counted, ends⟩ := inside
    rw [Nat.mod_eq_of_lt counted] at vertexEq
    have begins : (start.toNat + index.toNat) * pitch.toNat <
        (Stream.ofData data pitch).size.toNat := by
      rw [Stream.toNat_size_ofData]
      omega
    rw [vertexEq]
    exact ⟨by omega, Stream.le_maxVertex counted begins, by omega, by omega⟩

theorem toNat_indexedOffset_ofData {index : UInt32}
    (counted : start.toNat + index.toNat < 2 ^ 32)
    (ends : (start.toNat + index.toNat) * pitch.toNat + a.offset.toNat <
      2 ^ 32) :
    (indexedOffset a (Stream.ofData data pitch).field index start).toNat =
      (start.toNat + index.toNat) * pitch.toNat + a.offset.toNat := by
  have same : (Stream.ofData data pitch).field .pitch = pitch :=
    Stream.pitch_ofData
  have vertexEq : (index + start).toNat = start.toNat + index.toNat := by
    rw [UInt32.toNat_add, Nat.add_comm]
    exact Nat.mod_eq_of_lt counted
  rw [indexedOffset, same, UInt32.toNat_add, UInt32.toNat_mul, vertexEq]
  omega

theorem toNat_steppedOffset_ofData
    (ends : (start.toNat + current.toNat) * pitch.toNat + a.offset.toNat <
      2 ^ 32) :
    (steppedOffset a (Stream.ofData data pitch).field current start).toNat =
      (start.toNat + current.toNat) * pitch.toNat + a.offset.toNat := by
  have same : (Stream.ofData data pitch).field .pitch = pitch :=
    Stream.pitch_ofData
  rw [toNat_steppedOffset, same]
  exact Nat.mod_eq_of_lt ends

end Fetch

namespace Format

def channelAt (f : Format) (c : Fin 4) (data : Array UInt8) (offset : Nat) :
    Nat :=
  let first := offset + (f.swizzle.get c).toNat * f.channelBits / 8
  Word.littleEndian (data.extract first (first + f.channelBits / 8)).toList

/-- Channels lie in whole bytes, and none lies in two groups of four. -/
theorem group_covers {f : Format} {c : Fin 4} (inside : c.val < f.channels) :
    ∃ skipped, (f.swizzle.get c).toNat * f.channelBits % 32 = 8 * skipped ∧
      (f.swizzle.get c).toNat * f.channelBits / 8 = 4 * f.group c + skipped ∧
      f.channelBits = 8 * (f.channelBits / 8) ∧
      skipped + f.channelBits / 8 ≤ min (f.bytes - 4 * f.group c) 4 := by
  have each : ∀ shape : Shape, ∀ c : Fin 4, c.val < shape.channels →
      let first := (shape.swizzle.get c).toNat * shape.channelBits
      first % 32 = 8 * (first % 32 / 8) ∧
        first / 8 = 4 * (first / 32) + first % 32 / 8 ∧
        shape.channelBits = 8 * (shape.channelBits / 8) ∧
        first % 32 / 8 + shape.channelBits / 8 ≤
          min (shape.channels * shape.channelBits / 8 - 4 * (first / 32))
            4 := by
    intro shape
    cases shape <;> decide
  exact ⟨_, each f.shape c inside⟩

theorem channelIn_wordAt {f : Format} {c : Fin 4} (inside : c.val < f.channels)
    (data : Array UInt8) (offset : Nat) :
    f.channelIn c
      (wordAt data (offset + 4 * f.group c) (min (f.bytes - 4 * f.group c) 4)) =
      f.channelAt c data offset := by
  obtain ⟨skipped, shift, first, bits, fits⟩ := group_covers inside
  have few : min (f.bytes - 4 * f.group c) 4 ≤ 4 := Nat.min_le_right _ _
  generalize min (f.bytes - 4 * f.group c) 4 = length at fits few
  have stop : offset + 4 * f.group c + length - (offset + 4 * f.group c) =
      length := by omega
  have stop' (first : Nat) :
      first + f.channelBits / 8 - first = f.channelBits / 8 := by omega
  rw [channelIn, shift, bits, toNat_wordAt data _ few,
    Nat.shiftRight_eq_div_pow, ← Word.littleEndian_drop,
    ← Word.littleEndian_take, channelAt, first, Array.toList_extract,
    Array.toList_extract, List.extract_eq_take_drop, List.extract_eq_take_drop,
    stop, stop', List.drop_take, List.drop_drop, List.take_take,
    Nat.min_eq_left (by omega), Nat.add_assoc]

theorem wordAt_channel (f : Format) (c : Fin 4) (data : Array UInt8)
    (offset : Nat) :
    (wordAt data (offset + (f.swizzle.get c).toNat * (f.channelBits / 8))
      (f.channelBits / 8)).toNat = f.channelAt c data offset := by
  have bits := Fetch.channelBits_cases f
  have first : (f.swizzle.get c).toNat * f.channelBits / 8 =
      (f.swizzle.get c).toNat * (f.channelBits / 8) := by
    refine Nat.mul_div_assoc _ ?_
    omega
  rw [toNat_wordAt data _ (by omega), channelAt, first]

theorem decode_zero (f : Format) (strategy : Strategy) :
    f.decode strategy 0 = 0 := by
  rcases Fetch.channelBits_cases f with bits | bits | bits
  all_goals
    cases kind : f.kind
    all_goals
      simp only [decode, kind, bits, signed]
      cases strategy <;> decide

end Format

/-- What a stream of some data has for component `c` of a vertex: zero, unless
the data holds the whole element. -/
def Attribute.valueAt (a : Attribute) (c : Fin 4) (data : Array UInt8)
    (pitch : UInt32) (vertex : Nat) : UInt32 :=
  let offset := vertex * pitch.toNat + a.offset.toNat
  if vertex < 2 ^ 32 ∧ offset + a.format.bytes ≤ data.size then
    a.format.decode .gather (a.format.channelAt c data offset)
  else 0

theorem View.gathered_ofData {v : View} {a : Attribute} {c : Fin 4}
    {data : Array UInt8} {pitch : UInt32}
    (fields : v.field a.stream.toUInt8 = (Stream.ofData data pitch).field)
    (words : ∀ offset length, offset + length ≤ data.size →
      v.word a.stream.toUInt8 offset length = wordAt data offset length)
    (channel : c.val < a.format.channels) (index : UInt32) :
    v.gathered a c index =
      if Fetch.steppedInside a (Stream.ofData data pitch).field
        (v.current index a.rate)
          (v.start a.rate) then
        a.format.decode .gather (a.format.channelAt c data
          (Fetch.steppedOffset a (Stream.ofData data pitch).field
            (v.current index a.rate) (v.start a.rate)).toNat)
      else 0 := by
  unfold gathered gatheredWord
  dsimp only
  rw [fields]
  split
  next inside =>
    have ends := Fetch.steppedInside_ends inside
    have size : ((Stream.ofData data pitch).field .size).toNat ≤ data.size :=
      Nat.le_trans (Nat.le_of_eq Stream.toNat_size_ofData) (Nat.min_le_left _ _)
    have started := Fetch.group_lt_bytes channel
    rw [words _ _ (by omega), Format.channelIn_wordAt channel]
  next =>
    have zero : a.format.channelIn c 0 = 0 := by simp [Format.channelIn]
    rw [zero, Format.decode_zero]

theorem View.gathered_eq {v : View} {a : Attribute} {c : Fin 4}
    {data : Array UInt8} {pitch : UInt32} (small : data.size < 2 ^ 31)
    (fields : v.field a.stream.toUInt8 = (Stream.ofData data pitch).field)
    (words : ∀ offset length, offset + length ≤ data.size →
      v.word a.stream.toUInt8 offset length = wordAt data offset length)
    (channel : c.val < a.format.channels) (index : UInt32) :
    v.gathered a c index = a.valueAt c data pitch
      ((v.start a.rate).toNat + (v.current index a.rate).toNat) := by
  rw [gathered_ofData fields words channel, Attribute.valueAt]
  split
  next inside =>
    have ends := (Fetch.steppedInside_iff small).mp inside
    rw [if_pos ends, Fetch.toNat_steppedOffset_ofData (by omega)]
  next outside =>
    rw [if_neg fun ends => outside ((Fetch.steppedInside_iff small).mpr ends)]

theorem View.loaded_eq {v : View} {a : Attribute} {data : Array UInt8}
    {pitch : UInt32}
    (fields : v.field a.stream.toUInt8 = (Stream.ofData data pitch).field)
    (words : v.word a.stream.toUInt8 = wordAt data) (c : Fin 4)
    (index : UInt32) :
    v.loaded a true c index =
      let vertex := (v.argument .startVertex).toNat + index.toNat
      let offset := vertex * pitch.toNat + a.offset.toNat
      if vertex < 2 ^ 32 ∧
        offset + a.format.bytes ≤ min data.size 0xffffffff then
        a.format.decode .linear (a.format.channelAt c data offset)
      else 0 := by
  unfold loaded mayLoad
  dsimp only
  rw [fields, words, Bool.not_true, Bool.false_or]
  split
  next inside =>
    obtain ⟨counted, ends⟩ := Fetch.indexedInside_iff.mp inside
    rw [if_pos ⟨counted, ends⟩,
      Fetch.toNat_indexedOffset_ofData counted (by omega),
      Format.wordAt_channel]
  next outside =>
    rw [if_neg fun ends => outside (Fetch.indexedInside_iff.mpr ends),
      Format.decode_zero]

theorem Call.word_view_ofData {call : Call} {s : UInt8} {data : Array UInt8}
    {pitch : UInt32} (bound : call.stream s = .ok (.ofData data pitch)) :
    call.view.word s = wordAt data := by
  rw [word_view bound, Stream.data_ofData]

theorem Call.binds_ofData {call : Call} {s : UInt8} {data : Array UInt8}
    {pitch : UInt32} (bound : call.stream s = .ok (.ofData data pitch)) :
    call.Binds s := by
  refine ⟨_, bound, ?_⟩
  rw [Stream.toNat_size_ofData, Stream.data_ofData]
  exact Nat.min_le_left _ _

end VertexFetch
