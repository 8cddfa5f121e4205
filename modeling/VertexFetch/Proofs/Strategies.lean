import VertexFetch.Proofs.Loaded
import VertexFetch.Proofs.Refusal

namespace VertexFetch

/-- The formats of which both ways to fetch make the same words. -/
structure Format.Shared (f : Format) : Prop where
  not_snorm : f.kind ≠ .snorm
  not_half : ¬ f.IsHalf
  not_wide : ¬ f.IsWideScaled

/-- Attributes of which every vertex has all components from memory. -/
structure Attribute.Plain (a : Attribute) : Prop where
  packing : a.packing = BitVec.allOnes 4
  sources : a.sources = Vector.replicate 4 .memory
  rate : a.rate = .perVertex

theorem Format.Shared.decode_eq {f : Format} (shared : f.Shared) (raw : Nat) :
    f.decode .gather raw = f.decode .linear raw := by
  unfold Format.decode
  split
  next => rfl
  next snorm => exact absurd snorm shared.not_snorm
  all_goals rfl

namespace Attribute

variable {a : Attribute}

theorem support_of_shared (shared : a.format.Shared) (strategy : Strategy) :
    a.support strategy = .ok () := by
  have accepted : ¬ a.Refused strategy := by
    cases strategy with
    | linear => exact shared.not_half
    | gather => exact fun refused => shared.not_wide refused.1
  rw [support_eq, if_neg accepted]

theorem Plain.packed_eq (plain : a.Plain) : a.packed = List.finRange 4 := by
  rw [packed, plain.packing]
  decide

theorem Plain.component?_eq (plain : a.Plain) (shared : a.format.Shared)
    {v : View} {data : Array UInt8} {pitch : UInt32}
    (small : data.size < 2 ^ 31)
    (fields : v.field a.stream.toUInt8 = (Stream.ofData data pitch).field)
    (words : v.word a.stream.toUInt8 = wordAt data)
    (unbased : v.argument .baseVertex = 0) (index : Fin 8 → UInt32)
    (c : Fin 4) :
    v.component? a index c = some (v.loadedComponent a true index c) := by
  have source : a.sources.get c = .memory := by
    rw [plain.sources]
    exact Vector.getElem_replicate c.isLt
  have counted : min data.size 0xffffffff = data.size :=
    Nat.min_eq_left (by omega)
  unfold View.component? View.loadedComponent
  rw [source]
  apply congrArg some
  funext i
  split
  next inside =>
    have gathered :=
      View.gathered_eq small fields (fun _ _ _ => by rw [words]) inside
        (index i)
    have current : v.current (index i) a.rate = index i := by
      rw [plain.rate, View.current, unbased, UInt32.add_zero]
    have start : v.start a.rate = v.argument .startVertex := by
      rw [plain.rate, View.start]
    rw [gathered, current, start, View.loaded_eq fields words, counted, valueAt,
      shared.decode_eq]
  next => rfl

end Attribute

namespace Layout

def via (l : Layout) (strategy : Strategy) : Layout := { l with strategy }

variable {l : Layout} {call : Call}

theorem exists_kernel_via (shared : ∀ a ∈ l.attributes, a.format.Shared)
    (strategy : Strategy) : ∃ k, (l.via strategy).compile = .ok k :=
  exists_kernel
    (forM_eq_ok fun a member => a.support_of_shared (shared a member) strategy)

theorem placements_packed {v : View} {index : Fin 8 → UInt32}
    {attributes : List Attribute}
    (each : ∀ a ∈ attributes, a.packed = List.finRange 4 ∧
      ∀ c, v.component? a index c = some (v.loadedComponent a true index c))
    (n : Nat) :
    Fetch.placements (4 * n)
      ((attributes.flatMap fun a => a.packed.map (Prod.mk a)).map
        fun entry => v.component? entry.1 index entry.2) =
      (attributes.zipIdx n).flatMap
        fun entry => v.loadedRow entry.2 entry.1 true index := by
  induction attributes generalizing n with
  | nil => rfl
  | cons a attributes induction =>
      obtain ⟨packed, components⟩ := each a List.mem_cons_self
      have rest :=
        induction (fun a member => each a (List.mem_cons_of_mem _ member))
          (n + 1)
      have row : Fetch.placements (4 * n)
          ((a.packed.map (Prod.mk a)).map fun entry =>
          v.component? entry.1 index entry.2) = v.loadedRow n a true index := by
        have filled :
            ((fun entry => v.component? entry.1 index entry.2) ∘ Prod.mk a) =
            fun c => some (v.loadedComponent a true index c) :=
              funext components
        rw [packed, List.map_map, filled]
        unfold View.loadedRow
        simp only [← Fetch.place_row]
        rfl
      have length : ((a.packed.map (Prod.mk a)).map fun entry =>
          v.component? entry.1 index entry.2).length = 4 := by
        rw [packed]
        rfl
      rw [List.flatMap_cons, List.map_append, Fetch.placements_append, row,
        length, List.zipIdx_cons, List.flatMap_cons, ← rest]
      rfl

theorem outputs_via (checked : l.checked = true)
    (plain : ∀ a ∈ l.attributes, a.Plain ∧ a.format.Shared)
    (unbased : call.baseVertex = 0)
    (bound : ∀ a ∈ l.attributes, ∃ data pitch, data.size < 2 ^ 31 ∧
      call.stream a.stream.toUInt8 = .ok (.ofData data pitch)) :
    (l.via .gather).outputs call.view = (l.via .linear).outputs call.view := by
  have based : call.view.argument .baseVertex = 0 :=
    congrArg Int32.toUInt32 unbased
  have attributes : (l.via .gather).attributeOutputs call.view =
      (l.via .linear).attributeOutputs call.view := by
    simp only [attributeOutputs, packed_eq_flatMap, via, checked]
    refine placements_packed ?_ 0
    intro a member
    obtain ⟨complete, shared⟩ := plain a member
    obtain ⟨data, pitch, small, here⟩ := bound a member
    exact ⟨complete.packed_eq,
      complete.component?_eq shared small (Call.field_view here)
        (Call.word_view_ofData here) based _⟩
  unfold outputs
  rw [attributes]
  rfl

/-- Both ways to fetch find no fault and leave the same batch, for all layouts
of plain attributes whose formats both can fetch, and all calls without a base
whose streams are data of less than two gigabytes. -/
theorem fetch_via_eq (checked : l.checked = true)
    (plain : ∀ a ∈ l.attributes, a.Plain ∧ a.format.Shared)
    (unbased : call.baseVertex = 0)
    (indices : call.lastIndex ≤ call.indices.size)
    (bound : ∀ a ∈ l.attributes, ∃ data pitch, data.size < 2 ^ 31 ∧
      call.stream a.stream.toUInt8 = .ok (.ofData data pitch)) (batch : Batch) :
    ∃ gathers loads out, (l.via .gather).compile = .ok gathers ∧
      (l.via .linear).compile = .ok loads ∧
      gathers.fetch call batch = (out, none) ∧
      loads.fetch call batch = (out, none) := by
  have shared : ∀ a ∈ l.attributes, a.format.Shared :=
    fun a member => (plain a member).2
  obtain ⟨gathers, compiled⟩ := exists_kernel_via shared .gather
  obtain ⟨loads, compiled'⟩ := exists_kernel_via shared .linear
  have streams : ∀ a ∈ l.attributes, ∃ data pitch,
      call.stream a.stream.toUInt8 = .ok (.ofData data pitch) := by
    intro a member
    obtain ⟨data, pitch, _, here⟩ := bound a member
    exact ⟨data, pitch, here⟩
  have gathered := fetch_eq_of_checked compiled checked indices
    (binds_of_ofData (l := l.via .gather) streams) batch
  have loaded := fetch_eq_of_checked compiled' checked indices
    (binds_of_ofData (l := l.via .linear) streams) batch
  rw [outputs_via checked plain unbased bound] at gathered
  exact ⟨gathers, loads, _, compiled, compiled', gathered, loaded⟩

def overlapping : Layout where
  width := .u16
  attributes :=
    [{ stream := 0, offset := 2, format := ⟨.r8g8b8a8, .uscaled, by decide⟩ },
      { stream := 1, offset := 4, format := ⟨.r32g32, .float, by decide⟩ },
    { stream := 0, offset := 0, format := ⟨.r16g16, .sscaled, by decide⟩ }]
  cut := some 0xffff
  length_le := by decide
  stream_lt := by decide

/-- A call whose second lane finds the bytes of one attribute of the first
stream and not of the other, whose third lane is past all vertices, and whose
last index is cut short. -/
def overlappingCall : Call where
  streams := #[.ofData #[1, 2, 3, 4, 5, 6, 7, 8, 9, 10, 11] 3,
    .ofData #[0, 0, 0, 0, 0, 0, 128, 63, 0, 0, 0, 64] 0]
  indices := #[0, 0, 1, 0, 255, 255, 1]
  lastIndex := 7
  startVertex := 1

theorem fetch_via_eq_overlapping :
    ∃ gathers loads out, (overlapping.via .gather).compile = .ok gathers ∧
      (overlapping.via .linear).compile = .ok loads ∧
      gathers.fetch overlappingCall (.filled 9) = (out, none) ∧
      loads.fetch overlappingCall (.filled 9) = (out, none) := by
  have plain : ∀ a ∈ overlapping.attributes, a.Plain ∧ a.format.Shared := by
    intro a member
    simp only [overlapping, List.mem_cons, List.not_mem_nil, or_false] at member
    rcases member with rfl | rfl | rfl
    all_goals exact ⟨⟨rfl, rfl, rfl⟩, ⟨by decide, by decide, by decide⟩⟩
  have bound : ∀ a ∈ overlapping.attributes, ∃ data pitch, data.size < 2 ^ 31 ∧
      overlappingCall.stream a.stream.toUInt8 = .ok (.ofData data pitch) := by
    intro a member
    simp only [overlapping, List.mem_cons, List.not_mem_nil, or_false] at member
    rcases member with rfl | rfl | rfl
    · exact ⟨#[1, 2, 3, 4, 5, 6, 7, 8, 9, 10, 11], 3, by decide, rfl⟩
    · exact ⟨#[0, 0, 0, 0, 0, 0, 128, 63, 0, 0, 0, 64], 0, by decide, rfl⟩
    · exact ⟨#[1, 2, 3, 4, 5, 6, 7, 8, 9, 10, 11], 3, by decide, rfl⟩
  exact fetch_via_eq rfl plain rfl (by decide) bound (.filled 9)

end Layout
end VertexFetch
