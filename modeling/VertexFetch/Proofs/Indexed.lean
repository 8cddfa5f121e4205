import Mathlib.Data.Nat.Digits.Defs
import VertexFetch.Proofs.Bounds
import VertexFetch.Proofs.Support

namespace VertexFetch

theorem Word.littleEndian_eq_ofDigits (bytes : List UInt8) :
    littleEndian bytes = Nat.ofDigits 256 (bytes.map UInt8.toNat) := by
  induction bytes with
  | nil => rfl
  | cons b rest induction =>
      rw [littleEndian, induction, List.map_cons, Nat.ofDigits_cons]

namespace Call

/-- The index at the bytes of a lane, whose digits to base 256 they are, the
lowest first. -/
def laneIndex (call : Call) (width : IndexWidth) (lane : Fin 8) : Nat :=
  let first := lane.val * width.bytes
  Nat.ofDigits 256
    ((call.indices.extract first (first + width.bytes)).toList.map UInt8.toNat)

theorem toNat_index_view (call : Call) (width : IndexWidth) (lane : Fin 8) :
    (call.view.index width (lane.val * width.bytes)).toNat =
      call.laneIndex width lane :=
  (toNat_wordAt call.indices _ (Fetch.bytes_le width)).trans
    (Word.littleEndian_eq_ofDigits _)

theorem ends_le_lastIndex (call : Call) (width : IndexWidth) {lanes : Nat}
    (few : lanes ≤ 8) :
    lanes * width.bytes ≤ (call.view.argument .lastIndex).toNat ↔
      lanes * width.bytes ≤ call.lastIndex := by
  have near : lanes * width.bytes ≤ 8 * 4 :=
    Nat.mul_le_mul few (Fetch.bytes_le width)
  rw [toNat_lastIndex]
  omega

theorem toNat_indices_view (call : Call) (width : IndexWidth) (lane : Fin 8) :
    (call.view.indices width true lane).toNat =
      if (lane.val + 1) * width.bytes ≤ call.lastIndex then
        call.laneIndex width lane
      else 0 := by
  have ends := call.ends_le_lastIndex width lane.isLt
  unfold View.indices
  split
  next past =>
    rw [if_neg fun inside => past.2 (ends.mpr inside)]
    rfl
  next inside =>
    have inside : (lane.val + 1) * width.bytes ≤ call.lastIndex :=
      ends.mp (Decidable.not_not.mp fun past => inside ⟨rfl, past⟩)
    rw [if_pos inside, toNat_index_view]

end Call

namespace Layout

variable {l : Layout} {k : Kernel} {call : Call}

theorem cutMask_putAll_of_cut (compiled : l.compile = .ok k) {v : View}
    {streams : UInt8 → Prop} {reach : Nat} (ready : l.Ready v streams reach)
    {cut : UInt32} (cuts : l.cut = some cut) (batch : Batch) :
    (batch.putAll (l.outputs v)).cutMask =
      Vector.ofFn fun i =>
        Word.ofBool (v.indices l.width l.checked i = cut) := by
  have stored :
      (Target.cutMask, fun i =>
        Word.ofBool (v.indices l.width l.checked i = cut)) ∈
      l.outputs v := by
    rw [outputs, cuts]
    exact List.mem_cons_of_mem _
      (List.mem_append_left _ (List.mem_singleton.mpr rfl))
  exact Option.some.inj
    (Batch.read?_putAll (targets_outputs compiled ready) stored batch)

/-- A checked fetch finds no fault and leaves in each lane the index at its
bytes, or zero where they do not end by the last index byte. If an index cuts,
the mask has the lanes with it. -/
theorem fetch_indexes (compiled : l.compile = .ok k)
    (checked : l.checked = true) (indices : call.lastIndex ≤ call.indices.size)
    (binds : ∀ s, l.Needs s → call.Binds s) (batch : Batch) :
    ∃ out, k.fetch call batch = (out, none) ∧
      (∀ lane, (out.vertexId.get lane).toNat =
        if (lane.val + 1) * l.width.bytes ≤ call.lastIndex then
          call.laneIndex l.width lane
        else 0) ∧
      ∀ cut, l.cut = some cut → ∀ lane, out.cutMask.get lane =
        if out.vertexId.get lane = cut then 0xffffffff else 0 := by
  have ready : l.Ready call.view l.Needs call.lastIndex :=
    ready_of_checked checked
  have vertexId := vertexId_putAll compiled ready batch
  refine ⟨_, fetch_eq_of_checked compiled checked indices binds batch, ?_, ?_⟩
  · intro lane
    rw [vertexId, Lanes.get_ofFn, checked, Call.toNat_indices_view]
  · intro cut cuts lane
    rw [vertexId, cutMask_putAll_of_cut compiled ready cuts, Lanes.get_ofFn,
      Lanes.get_ofFn]
    by_cases same : call.view.indices l.width l.checked lane = cut
    · rw [if_pos same, decide_eq_true same]
      rfl
    · rw [if_neg same, decide_eq_false same]
      rfl

def strips : Layout where
  width := .u16
  attributes :=
    [{ stream := 0, offset := 2, format := ⟨.r8g8, .uint, by decide⟩ },
      { stream := 0, offset := 0, format := ⟨.r16, .unorm, by decide⟩,
        rate := .perInstance 2 }]
  cut := some 0xffff
  length_le := by decide
  stream_lt := by decide

/-- A call of whose index bytes an odd number may be read, and one may not. -/
def stripsCall : Call where
  streams := #[.ofData #[1, 2, 3, 4, 5, 6, 7, 8] 4]
  indices := #[2, 1, 255, 255, 7, 0, 255, 255]
  lastIndex := 7
  instanceId := 3

theorem fetch_indexes_strips :
    ∃ k out, strips.compile = .ok k ∧
      k.fetch stripsCall (.filled 3) = (out, none) ∧
      out.vertexId = #v[258, 65535, 7, 0, 0, 0, 0, 0] ∧
      out.cutMask = #v[0, 0xffffffff, 0, 0, 0, 0, 0, 0] := by
  obtain ⟨k, compiled⟩ := exists_kernel (l := strips) rfl
  have binds : ∀ s, strips.Needs s → stripsCall.Binds s := by
    rintro s ⟨a, member, rfl, _⟩
    rcases List.mem_pair.mp member with rfl | rfl
    all_goals exact ⟨_, rfl, by decide⟩
  obtain ⟨out, fetched, indexed, cuts⟩ :=
    fetch_indexes compiled rfl (by decide) binds (.filled 3)
  have vertexId : out.vertexId = #v[258, 65535, 7, 0, 0, 0, 0, 0] := by
    apply Lanes.ext_get
    intro lane
    apply UInt32.toNat_inj.mp
    rw [indexed]
    revert lane
    decide
  refine ⟨k, out, compiled, fetched, vertexId, ?_⟩
  apply Lanes.ext_get
  intro lane
  rw [cuts 0xffff rfl, vertexId]
  revert lane
  decide

end Layout
end VertexFetch
