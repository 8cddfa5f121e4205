import VertexFetch.Proofs.Draw

namespace VertexFetch

theorem drop_flatMap {α β : Type} {f : α → List β} {length : Nat}
    (each : ∀ a, (f a).length = length) (n : Nat) (as : List α) :
    (as.flatMap f).drop (n * length) = (as.drop n).flatMap f := by
  induction n generalizing as with
  | zero => rw [Nat.zero_mul, List.drop_zero, List.drop_zero]
  | succ n induction =>
      cases as with
      | nil =>
          rw [List.flatMap_nil, List.drop_nil, List.drop_nil, List.flatMap_nil]
      | cons a as =>
          have split : (n + 1) * length = (f a).length + n * length := by
            rw [each, Nat.succ_mul, Nat.add_comm]
          rw [List.flatMap_cons, split, List.drop_length_add_append, induction,
            List.drop_succ_cons]

namespace IndexWidth

def encode (width : IndexWidth) (values : List UInt32) : Array UInt8 :=
  (values.flatMap fun value =>
    (List.range width.bytes).map (Word.byte value)).toArray

def Fits (width : IndexWidth) (value : UInt32) : Prop :=
  value.toNat < 2 ^ (8 * width.bytes)

theorem size_encode (width : IndexWidth) (values : List UInt32) :
    (width.encode values).size = values.length * width.bytes := by
  rw [encode, List.size_toArray, List.length_flatMap]
  simp

theorem wordAt_encode {width : IndexWidth} {values : List UInt32} {n : Nat}
    {value : UInt32} (found : values[n]? = some value)
    (fits : width.Fits value) :
    wordAt (width.encode values) (n * width.bytes) width.bytes = value := by
  obtain ⟨inside, rfl⟩ := List.getElem?_eq_some_iff.mp found
  have bytes : ((width.encode values).extract (n * width.bytes)
      (n * width.bytes + width.bytes)).toList =
        (List.range width.bytes).map (Word.byte values[n]) := by
    rw [Array.toList_extract, List.extract_eq_take_drop, encode,
      List.toList_toArray, drop_flatMap (by simp),
      List.drop_eq_getElem_cons inside, List.flatMap_cons,
      Nat.add_sub_cancel_left]
    exact List.take_left' (by simp)
  rw [wordAt, bytes, List.range_eq_range', Word.littleEndian_bytes,
    Nat.mul_zero, Nat.pow_zero, Nat.div_one, Nat.mod_eq_of_lt fits,
    UInt32.ofNat_toNat]

end IndexWidth

namespace Draw

def encoded (d : Draw) (width : IndexWidth) (values : List UInt32) : Draw :=
  { d with indices := width.encode values }

theorem index_encoded (d : Draw) {width : IndexWidth} {values : List UInt32}
    (fits : ∀ value ∈ values, width.Fits value) (n : Nat) :
    (d.encoded width values).index width n = values[n]?.getD 0 := by
  have whole : (n + 1) * width.bytes ≤ values.length * width.bytes ↔
      n < values.length :=
    Nat.mul_le_mul_right_iff width.bytes_pos
  unfold index encoded
  rw [IndexWidth.size_encode]
  by_cases inside : n < values.length
  · have found : values[n]? = some values[n] := List.getElem?_eq_getElem inside
    rw [if_pos (whole.mpr inside), found, Option.getD_some]
    exact IndexWidth.wordAt_encode found (fits _ (List.getElem_mem inside))
  · have absent : values[n]? = none :=
      List.getElem?_eq_none (Nat.le_of_not_lt inside)
    rw [if_neg fun ends => inside (whole.mp ends), absent, Option.getD_none]

theorem batchCount_encoded (d : Draw) (width : IndexWidth)
    (values : List UInt32) :
    (d.encoded width values).batchCount (8 * width.bytes) =
      (values.length + 7) / 8 := by
  unfold batchCount encoded
  rw [IndexWidth.size_encode]
  cases width
  all_goals
    simp only [IndexWidth.bytes]
    omega

end Draw

namespace Layout

variable {l : Layout} {k : Kernel} {d : Draw}

def indexed (l : Layout) (width : IndexWidth) : Layout := { l with width }

theorem exists_batches_encoded {width : IndexWidth}
    (compiled : (l.indexed width).compile = .ok k) (checked : l.checked = true)
    (binds : ∀ s, l.Needs s → d.Binds s) {values : List UInt32}
    (fits : ∀ value ∈ values, width.Fits value) :
    ∃ batches, k.draw (d.encoded width values) = .ok batches ∧
      batches.length = (values.length + 7) / 8 ∧
      ∀ n batch, batches[n]? = some batch → ∀ i : Fin 8,
        batch.lane i = l.lane (d.call 0).view
          (values[8 * n + i.val]?.getD 0) i := by
  obtain ⟨batches, drawn, length, lanes⟩ :=
    exists_batches (d := d.encoded width values) compiled checked binds
  refine ⟨batches, drawn, length.trans (d.batchCount_encoded width values), ?_⟩
  intro n batch found i
  have same : (d.call 0).view.SameVertices
      ((d.encoded width values).call 0).view := Call.sameVertices _ _ _
  rw [lanes n batch found i, ← d.index_encoded fits]
  exact (l.lane_congr same _ i).symm

/-- Where a layout has a kernel for one width of the indices it has one for
every other, and their draws of index values that both widths can represent have
the same batches. -/
theorem draw_indexed_eq {width width' : IndexWidth}
    (compiled : (l.indexed width).compile = .ok k) (checked : l.checked = true)
    (binds : ∀ s, l.Needs s → d.Binds s) {values : List UInt32}
    (fits : ∀ value ∈ values, width.Fits value ∧ width'.Fits value) :
    ∃ k' batches, (l.indexed width').compile = .ok k' ∧
      k.draw (d.encoded width values) = .ok batches ∧
      k'.draw (d.encoded width' values) = .ok batches := by
  have supported : (l.indexed width).support = .ok () :=
    support_of_compile compiled
  obtain ⟨k', compiled'⟩ := exists_kernel (l := l.indexed width') supported
  obtain ⟨batches, drawn, length, lanes⟩ :=
    exists_batches_encoded compiled checked binds
    fun value member => (fits value member).1
  obtain ⟨batches', drawn', length', lanes'⟩ :=
    exists_batches_encoded compiled' checked binds
    fun value member => (fits value member).2
  have same : batches' = batches := by
    apply List.ext_getElem (length'.trans length.symm)
    intro n inside inside'
    apply Batch.ext_lane
    intro i
    rw [lanes _ _ (List.getElem?_eq_getElem inside'),
      lanes' _ _ (List.getElem?_eq_getElem inside)]
  exact ⟨k', batches, compiled', drawn, same ▸ drawn'⟩

def heightsIndices : List UInt32 := [0, 1, 2, 255, 3, 0, 0, 4, 3]

theorem draw_indexed_eq_heights :
    ∃ k k' batches, (heights.indexed .u8).compile = .ok k ∧
      (heights.indexed .u32).compile = .ok k' ∧
      k.draw (heightsDraw.encoded .u8 heightsIndices) = .ok batches ∧
      k'.draw (heightsDraw.encoded .u32 heightsIndices) = .ok batches := by
  obtain ⟨k, compiled⟩ := exists_kernel (l := heights.indexed .u8) rfl
  have fits : ∀ value ∈ heightsIndices,
      IndexWidth.u8.Fits value ∧ IndexWidth.u32.Fits value := by
    simp [heightsIndices, IndexWidth.Fits, IndexWidth.bytes]
  obtain ⟨k', batches, compiled', drawn, drawn'⟩ :=
    draw_indexed_eq compiled rfl binds_heights fits
  exact ⟨k, k', batches, compiled, compiled', drawn, drawn'⟩

end Layout
end VertexFetch
