import VertexFetch.Proofs.Fetch.Memory
import VertexFetch.Proofs.Indexed

namespace VertexFetch

/-- The element of the attribute lies in its stream for the vertex of every
lane, and neither the vertex nor its offset wraps. -/
def Attribute.Inside (a : Attribute) (call : Call) (width : IndexWidth) :
    Prop :=
  ∃ data pitch, call.stream a.stream.toUInt8 = .ok (.ofData data pitch) ∧
    ∀ lane,
      let vertex := call.laneIndex width lane + call.startVertex.toNat
      vertex < 2 ^ 32 ∧ vertex * pitch.toNat + a.offset.toNat + a.format.bytes ≤
        (Stream.ofData data pitch).size.toNat

namespace View

variable {v : View} {a : Attribute} {index : Fin 8 → UInt32}

theorem loadedRow_unchecked (may : ∀ lane, v.mayLoad a true (index lane) = true)
    (slot : Nat) :
    v.loadedRow slot a true index = v.loadedRow slot a false index := by
  have components (c : Fin 4) :
      v.loadedComponent a true index c = v.loadedComponent a false index c := by
    funext lane
    have may' : v.mayLoad a false (index lane) = true := rfl
    simp only [loadedComponent, loaded, may lane, may']
  unfold loadedRow
  simp only [components]

theorem covers_unchecked (may : ∀ lane, v.mayLoad a true (index lane) = true) :
    v.Covers a false index :=
  fun lane _ => Fetch.indexedInside_ends (may lane)

end View

namespace Call

variable {call : Call} {width : IndexWidth}

theorem indices_unchecked (whole : 8 * width.bytes ≤ call.lastIndex) :
    call.view.indices width true = call.view.indices width false := by
  funext lane
  have ends : (lane.val + 1) * width.bytes ≤ call.lastIndex :=
    Nat.le_trans (Nat.mul_le_mul_right _ lane.isLt) whole
  have tested := (call.ends_le_lastIndex width lane.isLt).mpr ends
  rw [View.indices, View.indices, if_neg fun past => past.2 tested,
    if_neg (by simp)]

theorem mayLoad_of_inside {a : Attribute} (inside : a.Inside call width)
    (lane : Fin 8) :
    call.view.mayLoad a true (call.view.indices width false lane) = true := by
  obtain ⟨data, pitch, bound, fits⟩ := inside
  obtain ⟨counted, ends⟩ := fits lane
  have index : (call.view.indices width false lane).toNat =
      call.laneIndex width lane := by
    rw [View.indices, if_neg (by simp), toNat_index_view]
  have start : call.view.argument .startVertex = call.startVertex := rfl
  rw [Stream.toNat_size_ofData] at ends
  rw [View.mayLoad, Bool.not_true, Bool.false_or, field_view bound,
    Fetch.indexedInside_iff, index, start, Nat.add_comm]
  exact ⟨counted, ends⟩

end Call

namespace Layout

variable {l : Layout} {k : Kernel} {call : Call}

def checking (l : Layout) (checked : Bool) : Layout := { l with checked }

theorem exists_kernel_checking (compiled : l.compile = .ok k) (checked : Bool) :
    ∃ k', (l.checking checked).compile = .ok k' := by
  have supported : l.support = .ok () := support_of_compile compiled
  exact exists_kernel (l := l.checking checked) supported

theorem outputs_checking (whole : 8 * l.width.bytes ≤ call.lastIndex)
    (inside : l.strategy = .linear →
      ∀ a ∈ l.attributes, a.Inside call l.width) :
    (l.checking true).outputs call.view =
      (l.checking false).outputs call.view := by
  have attributes : (l.checking true).attributeOutputs call.view =
      (l.checking false).attributeOutputs call.view := by
    simp only [attributeOutputs, checking, Call.indices_unchecked whole]
    cases strategy : l.strategy with
    | gather => rfl
    | linear =>
        apply List.flatMap_congr
        intro entry member
        have listed : entry.1 ∈ l.attributes :=
          List.fst_mem_of_mem_zipIdx member
        exact View.loadedRow_unchecked
          (Call.mayLoad_of_inside (inside strategy entry.1 listed)) entry.2
  have indices : call.view.indices l.width true =
      call.view.indices l.width false :=
    Call.indices_unchecked whole
  rw [outputs, outputs, attributes]
  exact congrArg (fun index : Fin 8 → UInt32 => (Target.vertexId, index) ::
    (l.cut.toList.map fun cut =>
      (Target.cutMask, fun i => Word.ofBool (index i = cut))) ++
      (l.checking false).attributeOutputs call.view) indices

theorem ready_unchecked (whole : 8 * l.width.bytes ≤ call.lastIndex)
    (inside : l.strategy = .linear →
      ∀ a ∈ l.attributes, a.Inside call l.width) :
    (l.checking false).Ready call.view l.Needs call.lastIndex where
  streams _ needs := needs
  readable := whole
  covers linear a member :=
    View.covers_unchecked (Call.mayLoad_of_inside (inside linear a member))

/-- Where a layout has a kernel with or without tests it has one with and one
without, and if all eight indices may be read, and the elements of attributes
that are loaded whole lie in their streams, both find no fault and leave the
same batch. Gathering is masked either way, so that its streams may have any
numbers. -/
theorem fetch_checking_eq (compiled : l.compile = .ok k)
    (whole : 8 * l.width.bytes ≤ call.lastIndex)
    (indices : call.lastIndex ≤ call.indices.size)
    (binds : ∀ s, l.Needs s → call.Binds s)
    (inside : l.strategy = .linear → ∀ a ∈ l.attributes, a.Inside call l.width)
    (batch : Batch) :
    ∃ checked unchecked out, (l.checking true).compile = .ok checked ∧
      (l.checking false).compile = .ok unchecked ∧
      checked.fetch call batch = (out, none) ∧
      unchecked.fetch call batch = (out, none) := by
  obtain ⟨checked, compiles⟩ := exists_kernel_checking compiled true
  obtain ⟨unchecked, compiles'⟩ := exists_kernel_checking compiled false
  have fetched := fetch_eq_of_checked compiles rfl indices binds batch
  have shows :=
    (Call.Agree.refl l.Needs call.lastIndex call).shows indices binds binds
  have fetched' := fetch_eq compiles' (ready_unchecked whole inside) shows batch
  rw [outputs_checking whole inside] at fetched
  exact ⟨checked, unchecked, _, compiles, compiles', fetched, fetched'⟩

def weighted : Layout where
  width := .u8
  attributes :=
    [{ stream := 0, offset := 1, format := ⟨.r8g8, .snorm, by decide⟩ },
      { stream := 1, offset := 0, format := ⟨.r16, .uint, by decide⟩ }]
  checked := false
  cut := some 2
  strategy := .linear
  length_le := by decide
  stream_lt := by decide

/-- A call whose last vertex ends with the data of the first stream, while all
vertices are one in the second, and whose last index byte may not be read. -/
def weightedCall : Call where
  streams :=
    #[.ofData #[0, 1, 2, 3, 4, 5, 6, 7, 8, 129, 128] 2, .ofData #[1, 2] 0]
  indices := #[0, 1, 2, 3, 2, 1, 0, 3, 9]
  lastIndex := 8
  startVertex := 1

theorem inside_weighted :
    ∀ a ∈ weighted.attributes, a.Inside weightedCall .u8 := by
  intro a member
  rcases List.mem_pair.mp member with rfl | rfl
  · exact ⟨#[0, 1, 2, 3, 4, 5, 6, 7, 8, 129, 128], 2, rfl, by decide⟩
  · exact ⟨#[1, 2], 0, rfl, by decide⟩

theorem fetch_checking_eq_weighted :
    8 * weighted.width.bytes ≤ weightedCall.lastIndex ∧
      (∀ a ∈ weighted.attributes, a.Inside weightedCall weighted.width) ∧
      ∃ checked unchecked out, (weighted.checking true).compile = .ok checked ∧
        (weighted.checking false).compile = .ok unchecked ∧
        checked.fetch weightedCall (.filled 6) = (out, none) ∧
        unchecked.fetch weightedCall (.filled 6) = (out, none) := by
  obtain ⟨k, compiled⟩ := exists_kernel (l := weighted) rfl
  have whole : 8 * weighted.width.bytes ≤ weightedCall.lastIndex := by decide
  have binds : ∀ s, weighted.Needs s → weightedCall.Binds s := by
    rintro s ⟨a, member, rfl, _⟩
    obtain ⟨data, pitch, bound, _⟩ := inside_weighted a member
    exact Call.binds_ofData bound
  exact ⟨whole, inside_weighted,
    fetch_checking_eq compiled whole (by decide) binds
      (fun _ => inside_weighted) (.filled 6)⟩

end Layout
end VertexFetch
