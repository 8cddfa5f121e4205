import Mathlib.Algebra.Order.Floor.Div
import Mathlib.Tactic.Choose
import VertexFetch.Draw
import VertexFetch.Proofs.Lane
import VertexFetch.Proofs.Support

namespace VertexFetch

theorem Call.sameVertices (call : Call) (indices : Array UInt8)
    (lastIndex : Nat) :
    call.view.SameVertices ({ call with indices, lastIndex } : Call).view := by
  refine ⟨?_, rfl, rfl⟩
  intro a other
  cases a with
  | lastIndex => exact absurd rfl other
  | _ => rfl

theorem IndexWidth.bytes_pos (width : IndexWidth) : 0 < width.bytes := by
  cases width <;> decide

def Batch.zero : Batch where
  rows := Vector.replicate 32 (Vector.replicate 4 (Vector.replicate 8 0))
  vertexId := Vector.replicate 8 0
  cutMask := Vector.replicate 8 0

namespace Draw

def Binds (d : Draw) (s : UInt8) : Prop :=
  ∃ st, d.streams[s.toNat]? = some st ∧ st.size.toNat ≤ st.data.size

/-- The value of an index. Bytes that are left after the last whole one are of
none. -/
def index (d : Draw) (width : IndexWidth) (n : Nat) : UInt32 :=
  if (n + 1) * width.bytes ≤ d.indices.size then
    wordAt d.indices (n * width.bytes) width.bytes
  else 0

/-- The call for one index by itself, or for one that is zero if there is no
such index. -/
def alone (d : Draw) (width : IndexWidth) (n : Nat) : Call where
  streams := d.streams
  indices :=
    if n < d.indices.size / width.bytes then
      d.indices.extract (n * width.bytes) ((n + 1) * width.bytes)
    else Array.replicate width.bytes 0
  lastIndex := width.bytes
  startVertex := d.startVertex
  baseVertex := d.baseVertex
  startInstance := d.startInstance
  instanceId := d.instanceId

theorem binds_call {d : Draw} {s : UInt8} (binds : d.Binds s) {call : Call}
    (same : call.streams = d.streams) : call.Binds s := by
  obtain ⟨st, bound, fits⟩ := binds
  rw [← same] at bound
  exact ⟨st, Call.stream_eq_ok.mpr bound, fits⟩

theorem indices_call (d : Draw) (width : IndexWidth) (n : Nat) (i : Fin 8) :
    (d.call (n * (8 * width.bytes))).view.indices width true i =
      d.index width (8 * n + i.val) := by
  have positive : 0 < (i.val + 1) * width.bytes :=
    Nat.mul_pos i.val.succ_pos width.bytes_pos
  have few : (i.val + 1) * width.bytes ≤ 8 * 4 :=
    Nat.mul_le_mul i.isLt (Fetch.bytes_le width)
  have split (j : Nat) :
      (8 * n + j) * width.bytes = n * (8 * width.bytes) + j * width.bytes := by
    rw [Nat.add_mul, Nat.mul_assoc, Nat.mul_left_comm]
  have next : (8 * n + i.val + 1) * width.bytes =
      n * (8 * width.bytes) + (i.val + 1) * width.bytes := split (i.val + 1)
  have last : (i.val + 1) * width.bytes = i.val * width.bytes + width.bytes :=
    Nat.succ_mul _ _
  have size : (d.call (n * (8 * width.bytes))).lastIndex =
      d.indices.size - n * (8 * width.bytes) := by
    rw [call, Array.size_extract, Nat.min_self]
  unfold View.indices index
  rw [Call.toNat_lastIndex, size, next, split]
  by_cases inside : n * (8 * width.bytes) + (i.val + 1) * width.bytes ≤
    d.indices.size
  · rw [if_pos inside, if_neg (by omega)]
    exact wordAt_slice d.indices (by omega)
  · rw [if_neg inside, if_pos ⟨rfl, by omega⟩]

theorem lt_count_iff (d : Draw) (width : IndexWidth) (n : Nat) :
    n < d.indices.size / width.bytes ↔
      (n + 1) * width.bytes ≤ d.indices.size :=
  Nat.le_div_iff_mul_le width.bytes_pos

theorem size_alone (d : Draw) (width : IndexWidth) (n : Nat) :
    (d.alone width n).indices.size = width.bytes := by
  rw [alone]
  split
  next inside =>
    have ends := (d.lt_count_iff width n).mp inside
    rw [Array.size_extract, Nat.min_eq_left ends, Nat.succ_mul,
      Nat.add_sub_cancel_left]
  next => exact Array.size_replicate

theorem wordAt_alone (d : Draw) (width : IndexWidth) (n : Nat) :
    wordAt (d.alone width n).indices 0 width.bytes = d.index width n := by
  have whole := d.lt_count_iff width n
  rw [alone, index]
  by_cases inside : n < d.indices.size / width.bytes
  · have last : (n + 1) * width.bytes = n * width.bytes + width.bytes :=
      Nat.succ_mul _ _
    rw [if_pos inside, if_pos (whole.mp inside)]
    exact wordAt_slice d.indices (by omega)
  · rw [if_neg inside, if_neg fun ends => inside (whole.mpr ends)]
    cases width <;> rfl

theorem indices_alone (d : Draw) (width : IndexWidth) (n : Nat) :
    (d.alone width n).view.indices width true 0 = d.index width n := by
  have few := Fetch.bytes_le width
  have inside : ((0 : Fin 8).val + 1) * width.bytes ≤
      ((d.alone width n).view.argument .lastIndex).toNat := by
    rw [Call.toNat_lastIndex, alone]
    simp only [Fin.val_zero, Nat.zero_add, Nat.one_mul]
    omega
  have first : (0 : Fin 8).val * width.bytes = 0 := Nat.zero_mul _
  rw [View.indices, if_neg fun outside => outside.2 inside, first]
  exact d.wordAt_alone width n

end Draw

namespace Layout

variable {l : Layout} {k : Kernel} {d : Draw}

/-- The batches of a checked draw. A lane has what the index of its number in
the draw gives. -/
theorem exists_batches (compiled : l.compile = .ok k)
    (checked : l.checked = true) (binds : ∀ s, l.Needs s → d.Binds s) :
    ∃ batches, k.draw d = .ok batches ∧
      batches.length = d.batchCount (8 * l.width.bytes) ∧
      ∀ n batch, batches[n]? = some batch → ∀ i : Fin 8,
        batch.lane i = l.lane (d.call 0).view
          (d.index l.width (8 * n + i.val)) i := by
  have needed (n : Nat) : ∀ s, l.Needs s →
      (d.call (n * (8 * l.width.bytes))).Binds s :=
    fun s needs => Draw.binds_call (binds s needs) rfl
  have fetches (n : Nat) :=
    fetch_lanes compiled checked (Nat.le_refl _) (needed n)
  choose batch fetched lanes using fetches
  refine ⟨(List.range (d.batchCount (8 * l.width.bytes))).map batch, ?_, ?_, ?_⟩
  · simp only [Kernel.draw, width_of_compile compiled, fetched]
    exact List.mapM_pure
  · rw [List.length_map, List.length_range]
  · intro n found member i
    rw [List.getElem?_map] at member
    obtain ⟨m, here, rfl⟩ := Option.map_eq_some_iff.mp member
    obtain ⟨bound, rfl⟩ := List.getElem?_eq_some_iff.mp here
    rw [List.getElem_range, lanes, Draw.indices_call]
    exact l.lane_congr (Call.sameVertices _ _ _) _ i

/-- A checked draw finds no fault and gives one batch for every eight indices,
the last for those that are left. Each lane has what the first lane has in a
fetch of that index alone into zeros, or of index zero for a lane after the last
index. -/
theorem draw_eq_single (compiled : l.compile = .ok k)
    (checked : l.checked = true) (binds : ∀ s, l.Needs s → d.Binds s) :
    ∃ batches, k.draw d = .ok batches ∧
      batches.length = d.indices.size ⌈/⌉ (8 * k.width.bytes) ∧
      ∀ n < 8 * batches.length, ∃ batch out,
        batches[n / 8]? = some batch ∧
        k.fetch (d.alone k.width n) .zero = (out, none) ∧
        batch.lane (Fin.ofNat 8 n) = out.lane 0 := by
  obtain ⟨batches, drawn, length, lanes⟩ :=
    exists_batches compiled checked binds
  rw [width_of_compile compiled]
  refine ⟨batches, drawn, length, ?_⟩
  intro n bound
  have inside : n / 8 < batches.length := Nat.div_lt_of_lt_mul bound
  have here := List.getElem?_eq_getElem inside
  have number : 8 * (n / 8) + (Fin.ofNat 8 n).val = n := Nat.div_add_mod n 8
  have needed : ∀ s, l.Needs s → (d.alone l.width n).Binds s :=
    fun s needs => Draw.binds_call (binds s needs) rfl
  obtain ⟨out, fetched, alone⟩ := fetch_lanes compiled checked
    (Nat.le_of_eq (d.size_alone l.width n).symm) needed
  refine ⟨batches[n / 8], out, here, fetched, ?_⟩
  calc batches[n / 8].lane (Fin.ofNat 8 n)
      = l.lane (d.call 0).view (d.index l.width n) (Fin.ofNat 8 n) := by
        rw [lanes _ _ here, number]
    _ = l.lane (d.call 0).view (d.index l.width n) 0 := l.lane_eq_lane _ _ _ 0
    _ = l.lane (d.alone l.width n).view (d.index l.width n) 0 :=
        l.lane_congr (Call.sameVertices _ _ _) _ 0
    _ = out.lane 0 := by rw [alone, d.indices_alone]

def heights : Layout where
  width := .u16
  attributes :=
    [{ stream := 0, offset := 1, format := ⟨.r16, .sint, by decide⟩ }]
  cut := some 0xffff
  strategy := .linear
  length_le := by decide
  stream_lt := by decide

def heightsDraw : Draw where
  streams := #[.ofData #[0, 1, 2, 3, 4, 5, 6, 0x80, 0x80] 2]
  indices := #[0, 0, 1, 0, 2, 0, 255, 255, 3, 0, 0, 0, 0, 1, 4, 0, 3, 0, 1]
  startVertex := 1
  baseVertex := -1

theorem binds_heights : ∀ s, heights.Needs s → heightsDraw.Binds s := by
  intro s ⟨a, member, same, _⟩
  obtain rfl := List.mem_singleton.mp member
  subst same
  exact ⟨_, rfl, by decide⟩

theorem draw_eq_single_heights :
    ∃ k batches, heights.compile = .ok k ∧ k.draw heightsDraw = .ok batches ∧
      batches.length = 2 ∧ ∀ n < 16, ∃ batch out, batches[n / 8]? = some batch ∧
        k.fetch (heightsDraw.alone .u16 n) .zero = (out, none) ∧
        batch.lane (Fin.ofNat 8 n) = out.lane 0 := by
  obtain ⟨k, compiled⟩ := exists_kernel (l := heights) rfl
  obtain ⟨batches, drawn, length, lanes⟩ :=
    draw_eq_single compiled rfl binds_heights
  rw [width_of_compile compiled] at length lanes
  have two : batches.length = 2 := length
  rw [two] at lanes
  exact ⟨k, batches, compiled, drawn, two, lanes⟩

end Layout
end VertexFetch
