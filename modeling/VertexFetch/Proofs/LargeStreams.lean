import VertexFetch.Proofs.Gathered
import VertexFetch.Proofs.Refusal

/-! Streams of any size that a word can count. The test of a gathered lane
compares a difference of words as signed ones, so that from two gigabytes on it
errs for some lanes. -/

namespace VertexFetch

/-- The bounds are those that the size and the pitch give. -/
structure Stream.Bounded (s : Stream) : Prop where
  pitched : s.pitch ≠ 0
  maxVertex : s.maxVertex = s.size / s.pitch
  partialSize : s.partialSize = s.size % s.pitch

theorem Stream.Bounded.parts {s : Stream} (bounded : s.Bounded) :
    s.maxVertex.toNat * s.pitch.toNat + s.partialSize.toNat = s.size.toNat ∧
      s.partialSize.toNat < s.pitch.toNat := by
  have positive : 0 < s.pitch.toNat := Nat.pos_of_ne_zero fun zero =>
    bounded.pitched (UInt32.toNat_inj.mp zero)
  rw [bounded.maxVertex, bounded.partialSize, UInt32.toNat_div,
    UInt32.toNat_mod]
  exact ⟨Nat.div_add_mod' _ _, Nat.mod_lt _ positive⟩

theorem Stream.Bounded.field_ofData {s : Stream} (bounded : s.Bounded)
    {data : Array UInt8} (size : data.size = s.size.toNat) :
    (ofData data s.pitch).field = s.field := by
  have sizeBound := s.size.toNat_lt
  have clamped : UInt32.ofNat (min data.size 0xffffffff) = s.size := by
    rw [size, Nat.min_eq_left (by omega), UInt32.ofNat_toNat]
  funext f
  unfold ofData
  rw [if_neg bounded.pitched, clamped]
  cases f with
  | pitch => rfl
  | size => rfl
  | maxVertex => exact bounded.maxVertex.symm
  | partialSize => exact bounded.partialSize.symm

namespace Fetch

def Fits (a : Attribute) (s : Stream) (current start : UInt32) : Prop :=
  (start.toNat + current.toNat) * s.pitch.toNat + a.offset.toNat +
    a.format.bytes ≤ s.size.toNat

/-- The lanes that the test errs for. Either the element lies in the bytes after
the whole vertices, and these reach so far past its offset that the difference
is negative when it is signed; or the start is past all vertices, and the
difference of no bytes and the offset wraps to a positive one, while the offset
wraps into the stream. -/
def Misjudged (a : Attribute) (s : Stream) (current start : UInt32) : Prop :=
  (start.toNat + current.toNat = s.maxVertex.toNat ∧
    a.offset.toNat + a.format.bytes ≤ s.partialSize.toNat ∧
    2 ^ 31 ≤ s.partialSize.toNat - a.offset.toNat) ∨
  (s.maxVertex.toNat < start.toNat ∧ current.toNat = 0 ∧
    2 ^ 31 < a.offset.toNat ∧
    start.toNat * s.pitch.toNat % 2 ^ 32 + a.offset.toNat + a.format.bytes ≤
      s.size.toNat)

instance (a : Attribute) (s : Stream) (current start : UInt32) :
    Decidable (Fits a s current start) :=
  inferInstanceAs (Decidable (_ ≤ _))

instance (a : Attribute) (s : Stream) (current start : UInt32) :
    Decidable (Misjudged a s current start) :=
  inferInstanceAs (Decidable (_ ∨ _))

variable {a : Attribute} {s : Stream} {current start : UInt32}

theorem not_fits_of_lt (bounded : s.Bounded)
    (after : s.maxVertex.toNat < start.toNat + current.toNat) :
    ¬ Fits a s current start := by
  obtain ⟨parts, rest⟩ := bounded.parts
  have begins := Nat.mul_le_mul_right s.pitch.toNat after
  rw [Nat.succ_mul] at begins
  unfold Fits
  omega

theorem fits_iff_of_eq (bounded : s.Bounded)
    (last : start.toNat + current.toNat = s.maxVertex.toNat) :
    Fits a s current start ↔
      a.offset.toNat + a.format.bytes ≤ s.partialSize.toNat := by
  obtain ⟨parts, _⟩ := bounded.parts
  rw [Fits, last]
  omega

theorem offset_inside_iff {vertex : Nat}
    (begins : vertex * s.pitch.toNat ≤ s.size.toNat) :
    (a.offset.toNat ≤ (vertex * s.pitch.toNat + a.offset.toNat) % 2 ^ 32 ∧
      (vertex * s.pitch.toNat + a.offset.toNat) % 2 ^ 32 + a.format.bytes ≤
      s.size.toNat) ↔
    vertex * s.pitch.toNat + a.offset.toNat + a.format.bytes ≤
      s.size.toNat := by
  have sizeBound := s.size.toNat_lt
  have offsetBound := a.offset.toNat_lt
  omega

theorem reaches_of_fits {rest : UInt32}
    (fits : a.offset.toNat + a.format.bytes ≤ rest.toNat) :
    Reaches a rest ↔ rest.toNat - a.offset.toNat < 2 ^ 31 := by
  have restBound := rest.toNat_lt
  rw [Reaches, UInt32.toNat_sub]
  omega

theorem steppedInside_cases :
    steppedInside a s.field current start = true ↔
      ((start.toNat ≤ s.maxVertex.toNat ∧
          (start.toNat + current.toNat < s.maxVertex.toNat ∨
            start.toNat + current.toNat = s.maxVertex.toNat ∧
            Reaches a s.partialSize)) ∨
        (s.maxVertex.toNat < start.toNat ∧ current.toNat = 0 ∧ Reaches a 0)) ∧
      a.offset.toNat ≤
        ((start.toNat + current.toNat) * s.pitch.toNat + a.offset.toNat) %
          2 ^ 32 ∧
      ((start.toNat + current.toNat) * s.pitch.toNat + a.offset.toNat) %
        2 ^ 32 + a.format.bytes ≤ s.size.toNat := by
  rw [steppedInside, Bool.and_eq_true, Bool.and_eq_true, decide_eq_true_eq,
    endsInside_iff, UInt32.le_iff_toNat_le, toNat_steppedOffset,
    vertexInside_cases]
  exact Iff.rfl

theorem steppedInside_of_lt (bounded : s.Bounded)
    (before : start.toNat + current.toNat < s.maxVertex.toNat) :
    steppedInside a s.field current start = true ↔ Fits a s current start := by
  obtain ⟨parts, _⟩ := bounded.parts
  have begins := Nat.mul_le_mul_right s.pitch.toNat (Nat.le_of_lt before)
  have reached : start.toNat ≤ s.maxVertex.toNat := by omega
  rw [steppedInside_cases, offset_inside_iff (by omega), Fits]
  exact and_iff_right (.inl ⟨reached, .inl before⟩)

theorem steppedInside_of_eq (bounded : s.Bounded)
    (last : start.toNat + current.toNat = s.maxVertex.toNat) :
    steppedInside a s.field current start = true ↔
      Fits a s current start ∧
      s.partialSize.toNat - a.offset.toNat < 2 ^ 31 := by
  obtain ⟨parts, _⟩ := bounded.parts
  have reached : start.toNat ≤ s.maxVertex.toNat := by omega
  have begins : (start.toNat + current.toNat) * s.pitch.toNat ≤
      s.size.toNat := by
    rw [last]
    omega
  rw [steppedInside_cases, offset_inside_iff begins, ← Fits,
    fits_iff_of_eq bounded last]
  constructor
  · rintro ⟨⟨_, before | ⟨_, reaches⟩⟩ | ⟨past, _⟩, fits⟩
    · exact absurd last (Nat.ne_of_lt before)
    · exact ⟨fits, (reaches_of_fits fits).mp reaches⟩
    · exact absurd reached (Nat.not_le.mpr past)
  · rintro ⟨fits, small⟩
    exact ⟨.inl ⟨reached, .inr ⟨last, (reaches_of_fits fits).mpr small⟩⟩, fits⟩

theorem not_steppedInside_of_gt (reached : start.toNat ≤ s.maxVertex.toNat)
    (after : s.maxVertex.toNat < start.toNat + current.toNat) :
    ¬ steppedInside a s.field current start = true := by
  rw [steppedInside_cases]
  rintro ⟨⟨_, before | ⟨last, _⟩⟩ | ⟨past, _⟩, _⟩
  · exact absurd after (Nat.lt_asymm before)
  · exact absurd last.symm (Nat.ne_of_lt after)
  · exact absurd reached (Nat.not_le.mpr past)

/-- Past all vertices the first lane is judged by words that wrapped. -/
theorem steppedInside_of_past (past : s.maxVertex.toNat < start.toNat) :
    steppedInside a s.field current start = true ↔
      current.toNat = 0 ∧ 2 ^ 31 < a.offset.toNat ∧
        start.toNat * s.pitch.toNat % 2 ^ 32 + a.offset.toNat + a.format.bytes ≤
          s.size.toNat := by
  have sizeBound := s.size.toNat_lt
  have offsetBound := a.offset.toNat_lt
  have positive := bytes_pos a.format
  have reaches : Reaches a 0 ↔
      2 ^ 31 < a.offset.toNat ∧ a.offset.toNat + a.format.bytes ≤ 2 ^ 32 := by
    rw [Reaches, UInt32.toNat_sub, UInt32.toNat_zero]
    omega
  rw [steppedInside_cases, reaches]
  constructor
  · rintro ⟨⟨reached, _⟩ | ⟨_, first, far, _⟩, above, ends⟩
    · exact absurd past (Nat.not_lt.mpr reached)
    · rw [first, Nat.add_zero] at above ends
      exact ⟨first, far, by omega⟩
  · rintro ⟨first, far, ends⟩
    rw [first, Nat.add_zero]
    exact ⟨.inr ⟨past, rfl, far, by omega⟩, by omega, by omega⟩

theorem steppedInside_iff_fits (bounded : s.Bounded) :
    (steppedInside a s.field current start = true ↔ Fits a s current start) ↔
      ¬ Misjudged a s current start := by
  rcases Nat.lt_or_ge s.maxVertex.toNat start.toNat with past | reached
  · have outside : ¬ Fits a s current start :=
      not_fits_of_lt bounded (Nat.lt_of_lt_of_le past (Nat.le_add_right _ _))
    rw [steppedInside_of_past past, iff_false_right outside, Misjudged]
    omega
  · rcases Nat.lt_trichotomy (start.toNat + current.toNat) s.maxVertex.toNat
      with before | last | after
    · rw [Misjudged]
      exact iff_of_true (steppedInside_of_lt bounded before) (by omega)
    · rw [steppedInside_of_eq bounded last, fits_iff_of_eq bounded last,
        Misjudged]
      omega
    · have outside : ¬ Fits a s current start := not_fits_of_lt bounded after
      rw [iff_false_right outside, Misjudged]
      exact iff_of_true (not_steppedInside_of_gt reached after) (by omega)

theorem not_misjudged_of_lt (small : s.size.toNat < 2 ^ 31)
    (bounded : s.Bounded) : ¬ Misjudged a s current start := by
  obtain ⟨parts, _⟩ := bounded.parts
  have rest : s.partialSize.toNat ≤ s.size.toNat :=
    Nat.le.intro ((Nat.add_comm _ _).trans parts)
  unfold Misjudged
  omega

/-- The mask of a gather has all bits or none in each lane, and is right for
just the lanes that are not misjudged. There are none in a stream below two
gigabytes. -/
theorem steppedWindow_mask (a : Attribute) {d : Draft}
    (formed : d.graph.WellFormed) {call : Call} {s : Stream}
    (bound : call.stream a.stream.toUInt8 = .ok s) (bounded : s.Bounded)
    {current start : Ref} {x y : Fin 8 → UInt32}
    (currents : d.graph.Holds (· = call) current x)
    (starts : d.graph.Holds (· = call) start y) :
    ∃ mask, (steppedWindow a current start d).2.graph.value call
        (steppedWindow a current start d).1.mask = .ok mask ∧
      ∀ i, (mask.get i = 0 ∨ mask.get i = 0xffffffff) ∧
        ((mask.get i = 0xffffffff ↔ Fits a s (x i) (y i)) ↔
          ¬ Misjudged a s (x i) (y i)) ∧
        (s.size.toNat < 2 ^ 31 → ¬ Misjudged a s (x i) (y i)) := by
  obtain ⟨grows, _, does⟩ := steppedWindow_does a current start d
  have values : ∀ r ∈ [current, start], d.graph.IsValue r := by
    intro r member
    rcases List.mem_cons.mp member with rfl | member
    · exact (currents call rfl).1.isValue
    · obtain rfl := List.mem_singleton.mp member
      exact (starts call rfl).1.isValue
  obtain ⟨formed', _⟩ := grows.formed formed values
  have masks := ((does _ (Graph.le_refl _)).2 (· = call) s.field x y formed' ?_
    (currents.mono formed formed' grows.grown)
      (starts.mono formed formed' grows.grown)).2
  · refine ⟨_, (masks call rfl).2, ?_⟩
    intro i
    rw [Lanes.get_ofFn]
    refine ⟨?_, ?_, fun small => not_misjudged_of_lt small bounded⟩
    · cases steppedInside a s.field (x i) (y i) with
      | false => exact .inl rfl
      | true => exact .inr rfl
    · rw [Word.ofBool_eq_ones, steppedInside_iff_fits bounded]
  · rintro _ rfl
    exact ⟨s, bound, fun _ => rfl⟩

def wordFormat : Format := ⟨.r32, .uint, by decide⟩

def wordAttribute (offset : UInt32) : Attribute :=
  { stream := 0, offset, format := wordFormat }

def vertexDraft : Draft :=
  { graph := ⟨#[.value (.word 0), .value (.argument .startVertex)]⟩ }

def longPart : Stream := ⟨#[], 0xffffffff, 0x90000000, 0, 0x90000000⟩

def manyVertices : Stream := ⟨#[], 0x10000, 0x90000000, 0x9000, 0⟩

theorem bounded_longPart : longPart.Bounded := ⟨by decide, by decide, by decide⟩

theorem bounded_manyVertices : manyVertices.Bounded :=
  ⟨by decide, by decide, by decide⟩

theorem steppedWindow_mask_wraps :
    (∃ mask,
      (steppedWindow (wordAttribute 0) 0 1 vertexDraft).2.graph.value
        { streams := #[longPart] }
        (steppedWindow (wordAttribute 0) 0 1 vertexDraft).1.mask = .ok mask ∧
      mask.get 0 = 0 ∧ Fits (wordAttribute 0) longPart 0 0) ∧
    ∃ mask,
      (steppedWindow (wordAttribute 0x80000001) 0 1 vertexDraft).2.graph.value
        { streams := #[manyVertices], startVertex := 0x10000 }
        (steppedWindow (wordAttribute 0x80000001) 0 1 vertexDraft).1.mask =
          .ok mask ∧
      mask.get 0 = 0xffffffff ∧
      ¬ Fits (wordAttribute 0x80000001) manyVertices 0 0x10000 := by
  have formed : vertexDraft.graph.WellFormed := by decide
  have currents (C : Call → Prop) : vertexDraft.graph.Holds C 0 fun _ => 0 :=
    .word formed rfl
  constructor
  · have bound : ({ streams := #[longPart] } : Call).stream 0 = .ok longPart :=
      rfl
    have starts :
        vertexDraft.graph.Holds (· = { streams := #[longPart] }) 1 fun _ => 0 :=
      .argument formed (a := .startVertex) rfl
        fun call same => congrArg Call.startVertex same
    obtain ⟨mask, value, lanes⟩ :=
      steppedWindow_mask (wordAttribute 0) formed bound bounded_longPart
        (currents _) starts
    obtain ⟨bits, judged, _⟩ := lanes 0
    have misjudged : Misjudged (wordAttribute 0) longPart 0 0 := by decide
    have fits : Fits (wordAttribute 0) longPart 0 0 := by decide
    refine ⟨mask, value, bits.resolve_right fun ones => ?_, fits⟩
    exact judged.mp (iff_of_true ones fits) misjudged
  · let call : Call := { streams := #[manyVertices], startVertex := 0x10000 }
    have bound : call.stream 0 = .ok manyVertices := rfl
    have starts : vertexDraft.graph.Holds (· = call) 1 fun _ => 0x10000 :=
      .argument formed (a := .startVertex) rfl
        fun call same => congrArg Call.startVertex same
    obtain ⟨mask, value, lanes⟩ :=
      steppedWindow_mask
        (wordAttribute 0x80000001) formed bound bounded_manyVertices
          (currents _) starts
    obtain ⟨bits, judged, _⟩ := lanes 0
    have misjudged :
        Misjudged (wordAttribute 0x80000001) manyVertices 0 0x10000 := by decide
    have outside :
        ¬ Fits (wordAttribute 0x80000001) manyVertices 0 0x10000 := by decide
    refine ⟨mask, value, bits.resolve_left fun zero => ?_, outside⟩
    exact judged.mp (iff_of_false (by rw [zero]; decide) outside) misjudged

end Fetch

namespace Layout

def words (offset : UInt32) : Layout where
  width := .u8
  attributes := [Fetch.wordAttribute offset]
  length_le := Nat.le_add_left 1 31
  stream_lt a member := by
    obtain rfl := List.mem_singleton.mp member
    exact Nat.zero_lt_succ 31

def wordsCall (data : Array UInt8) (pitch start : UInt32) : Call :=
  { streams := #[.ofData data pitch], indices := #[0], lastIndex := 1,
    startVertex := start }

theorem exists_kernel_words (offset : UInt32) :
    ∃ k, (words offset).compile = .ok k := by
  refine exists_kernel_iff.mpr (refused?_eq_none.mpr ?_)
  intro a member refused
  obtain rfl := List.mem_singleton.mp member
  exact absurd refused.1 (by decide : ¬ Fetch.wordFormat.IsWideScaled)

theorem fetch_words (data : Array UInt8) (pitch start offset : UInt32) :
    ∃ k out, (words offset).compile = .ok k ∧
      k.fetch (wordsCall data pitch start) (.filled 0) = (out, none) ∧
      ((out.rows.get 0).get 0).get 0 =
        let a := Fetch.wordAttribute offset
        let field := (Stream.ofData data pitch).field
        if Fetch.steppedInside a field 0 start then
          a.format.decode .gather
            (a.format.channelAt 0 data
              (Fetch.steppedOffset a field 0 start).toNat)
        else 0 := by
  obtain ⟨k, compiled⟩ := exists_kernel_words offset
  have bound : (wordsCall data pitch start).stream
      (Fetch.wordAttribute offset).stream.toUInt8 =
      .ok (.ofData data pitch) := rfl
  have binds : ∀ s, (words offset).Needs s →
      (wordsCall data pitch start).Binds s := by
    rintro s ⟨a, member, rfl, _⟩
    obtain rfl := List.mem_singleton.mp member
    exact Call.binds_ofData bound
  have fetched :=
    fetch_eq_of_checked compiled rfl (Nat.le_refl 1) binds (.filled 0)
  refine ⟨k, _, compiled, fetched, ?_⟩
  have all : (Fetch.wordAttribute 0).packed = [0, 1, 2, 3] := by decide
  have packed : (words offset).packed[0]? =
      some (Fetch.wordAttribute offset, 0) := by
    rw [packed_eq_flatMap]
    change ((Fetch.wordAttribute 0).packed.map
      (Prod.mk (Fetch.wordAttribute offset)) ++ [])[0]? = _
    rw [all]
    rfl
  have row :=
    Batch.read?_putAll (targets_outputs compiled (ready_of_checked rfl))
      (mem_outputs_of_packed rfl packed
        (v := (wordsCall data pitch start).view) rfl) (.filled 0)
  have stored := Option.some.inj ((Batch.read?_row _ 0 0).symm.trans row)
  have channel : 0 < (Fetch.wordAttribute offset).format.channels :=
    Nat.zero_lt_succ 0
  have gathers := View.gathered_ofData (c := 0) (Call.field_view bound)
    (fun _ _ _ => by rw [Call.word_view_ofData bound]) channel
    ((wordsCall data pitch start).view.indices .u8 true 0)
  have current : (wordsCall data pitch start).view.current
      ((wordsCall data pitch start).view.indices .u8 true 0)
        (Fetch.wordAttribute offset).rate = 0 :=
    rfl
  rw [current] at gathers
  rw [stored, Lanes.get_ofFn]
  exact (if_pos channel).trans gathers

theorem channelAt_replicate {n first : Nat} (inside : first + 4 ≤ n) :
    Fetch.wordFormat.channelAt 0 (Array.replicate n 1) first = 0x01010101 := by
  have begins :
      (Fetch.wordFormat.swizzle.get 0).toNat * Fetch.wordFormat.channelBits /
        8 = 0 := by
    decide
  have length : Fetch.wordFormat.channelBits / 8 = 4 := by decide
  have bytes : (Array.replicate n (1 : UInt8)).extract first (first + 4) =
      .replicate 4 1 := by
    rw [Array.extract_replicate, Nat.min_eq_left inside,
      Nat.add_sub_cancel_left]
  rw [Format.channelAt, begins, length, Nat.add_zero, bytes]
  decide

/-- Data that is there is not read, and data of no vertex is. -/
theorem fetch_misjudges_large_streams :
    (∃ (data : Array UInt8) (k : Kernel) (out : Batch), data.size = 0x90000000 ∧
      (words 0).compile = .ok k ∧
      k.fetch (wordsCall data 0xffffffff 0) (.filled 0) = (out, none) ∧
      ((out.rows.get 0).get 0).get 0 = 0 ∧
      (Fetch.wordAttribute 0).valueAt 0 data 0xffffffff 0 = 0x01010101) ∧
    ∃ (data : Array UInt8) (k : Kernel) (out : Batch), data.size = 0x90000000 ∧
      (words 0x80000001).compile = .ok k ∧
      k.fetch (wordsCall data 0x10000 0x10000) (.filled 0) = (out, none) ∧
      ((out.rows.get 0).get 0).get 0 = 0x01010101 ∧
      (Fetch.wordAttribute 0x80000001).valueAt 0 data 0x10000 0x10000 = 0 := by
  have size : (Array.replicate 0x90000000 (1 : UInt8)).size = 0x90000000 :=
    Array.size_replicate
  have word (first : Nat) (inside : first + 4 ≤ 0x90000000) :=
    channelAt_replicate inside
  generalize Array.replicate 0x90000000 (1 : UInt8) = data at size word
  constructor
  · obtain ⟨k, out, compiled, fetched, stored⟩ :=
      fetch_words data 0xffffffff 0 0
    have fields : (Stream.ofData data 0xffffffff).field =
        Fetch.longPart.field :=
      Fetch.bounded_longPart.field_ofData size
    have fails : Fetch.steppedInside
        (Fetch.wordAttribute 0) Fetch.longPart.field 0 0 = false := by
      decide
    refine ⟨data, k, out, size, compiled, fetched, stored.trans ?_, ?_⟩
    · dsimp only
      rw [fields, fails]
      rfl
    · rw [Attribute.valueAt, if_pos ⟨by decide, by rw [size]; decide⟩]
      exact congrArg _ (word 0 (by decide))
  · obtain ⟨k, out, compiled, fetched, stored⟩ :=
      fetch_words data 0x10000 0x10000 0x80000001
    have fields : (Stream.ofData data 0x10000).field =
        Fetch.manyVertices.field :=
      Fetch.bounded_manyVertices.field_ofData size
    have passes : Fetch.steppedInside (Fetch.wordAttribute 0x80000001)
        Fetch.manyVertices.field 0 0x10000 = true := by
      decide
    refine ⟨data, k, out, size, compiled, fetched, stored.trans ?_, ?_⟩
    · dsimp only
      rw [fields, if_pos passes]
      exact congrArg _ (word 0x80000001 (by decide))
    · rw [Attribute.valueAt, if_neg]
      rw [size]
      decide

end Layout
end VertexFetch
