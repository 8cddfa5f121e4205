import VertexFetch.Proofs.Gathered
import VertexFetch.Proofs.Refusal

namespace VertexFetch

theorem Fetch.exists_of_mem_placements {α : Type} {values : List (Option α)}
    {n : Nat} {output : Target × α} (member : output ∈ placements n values) :
    ∃ k, values[k]? = some (some output.2) ∧ output.1 = place (n + k) := by
  obtain ⟨⟨value?, i⟩, entry, made⟩ := List.mem_filterMap.mp member
  obtain ⟨x, rfl, rfl⟩ := Option.map_eq_some_iff.mp made
  obtain ⟨after, found⟩ := List.mem_zipIdx_iff_le_and_getElem?_sub.mp entry
  exact ⟨i - n, found, by rw [Nat.add_sub_cancel' after]⟩

theorem Lanes.ofFn_const (w : UInt32) :
    (Vector.ofFn fun _ : Fin 8 => w) = Lanes.splat w :=
  Lanes.ext_get fun i => by simp

namespace Attribute

/-- What a packed component that is not read from memory leaves in its row. -/
def unread (a : Attribute) (c : Fin 4) (before : Lanes) : Lanes :=
  match a.sources.get c with
  | .skip => before
  | .zero => .splat 0
  | .oneFloat => .splat Single.one
  | .oneInt => .splat 1
  | .memory => .splat (if c.val = 3 then Single.one else 0)

theorem component?_of_not_reads {a : Attribute} {c : Fin 4}
    (unread : ¬ a.Reads c) (v : View) (index : Fin 8 → UInt32)
    (before : Lanes) :
    ((v.component? a index c).map Vector.ofFn).getD before =
      a.unread c before := by
  unfold View.component? Attribute.unread
  cases source : a.sources.get c with
  | skip => rfl
  | zero => exact Lanes.ofFn_const 0
  | oneFloat => exact Lanes.ofFn_const Single.one
  | oneInt => exact Lanes.ofFn_const 1
  | memory =>
      have absent : ¬ c.val < a.format.channels :=
        fun inside => unread ⟨source, inside⟩
      simp only [if_neg absent]
      exact Lanes.ofFn_const _

end Attribute

namespace Layout

variable {l : Layout} {v : View}

theorem length_packed (l : Layout) : l.packed.length ≤ 128 := by
  calc l.packed.length
      ≤ (l.attributes ×ˢ List.finRange 4).length := List.length_filter_le _ _
    _ = l.attributes.length * 4 := by
        rw [List.length_product, List.length_finRange]
    _ ≤ 32 * 4 := Nat.mul_le_mul_right 4 l.length_le

/-- What the layout puts at the place of packed component `n`. -/
def packedOutput? (l : Layout) (v : View) (n : Nat) : Option (Fin 8 → UInt32) :=
  l.packed[n]?.bind fun entry =>
    v.component? entry.1 (v.indices l.width l.checked) entry.2

theorem cases_of_mem_outputs (gather : l.strategy = .gather)
    {output : Target × (Fin 8 → UInt32)} (member : output ∈ l.outputs v) :
    output.1 = .vertexId ∨ (output.1 = .cutMask ∧ l.cut ≠ none) ∨
      ∃ n < 128, output.1 = Fetch.place n ∧
        l.packedOutput? v n = some output.2 := by
  rcases List.mem_cons.mp member with rfl | member
  · exact .inl rfl
  rcases List.mem_append.mp member with cut | gathered
  · obtain ⟨value, present, rfl⟩ := List.mem_map.mp cut
    rw [Option.mem_toList] at present
    exact .inr (.inl ⟨rfl, Option.ne_none_iff_exists'.mpr ⟨value, present⟩⟩)
  · rw [attributeOutputs, gather] at gathered
    obtain ⟨n, found, target⟩ := Fetch.exists_of_mem_placements gathered
    rw [Nat.zero_add] at target
    have inside := (List.getElem?_eq_some_iff.mp found).1
    rw [List.length_map] at inside
    rw [List.getElem?_map, Option.map_eq_some_iff] at found
    obtain ⟨entry, packed, filled⟩ := found
    refine .inr
      (.inr ⟨n, Nat.lt_of_lt_of_le inside l.length_packed, target, ?_⟩)
    rw [packedOutput?, packed, Option.bind_some, filled]

theorem read?_putAll_place (gather : l.strategy = .gather)
    (targets : ((l.outputs v).map Prod.fst).Sublist Target.all) {n : Nat}
    (few : n < 128) (batch : Batch) :
    (batch.putAll (l.outputs v)).read? (Fetch.place n) =
      ((l.packedOutput? v n).map Vector.ofFn).or
        (batch.read? (Fetch.place n)) := by
  cases stored : l.packedOutput? v n with
  | none =>
      refine Batch.read?_putAll_of_not_mem
        (fun output member => targets.subset (List.mem_map_of_mem member)) ?_
          batch
      intro output member same
      rcases cases_of_mem_outputs gather member
        with other | ⟨other, _⟩ | ⟨m, within, place, filled⟩
      · cases same.trans other
      · cases same.trans other
      · obtain rfl := Fetch.place_inj few within (same.trans place)
        cases stored.symm.trans filled
  | some x =>
      obtain ⟨⟨a, c⟩, packed, filled⟩ := Option.bind_eq_some_iff.mp stored
      exact Batch.read?_putAll targets
        (mem_outputs_of_packed gather packed filled) batch

theorem cutMask_putAll (gather : l.strategy = .gather) (uncut : l.cut = none)
    (targets : ((l.outputs v).map Prod.fst).Sublist Target.all)
    (batch : Batch) : (batch.putAll (l.outputs v)).cutMask = batch.cutMask := by
  have absent : ∀ output ∈ l.outputs v, Target.cutMask ≠ output.1 := by
    intro output member same
    rcases cases_of_mem_outputs gather member
      with other | ⟨_, cut⟩ | ⟨_, _, other, _⟩
    · cases same.trans other
    · exact cut uncut
    · cases same.trans other
  exact Option.some.inj (Batch.read?_putAll_of_not_mem
    (fun output member => targets.subset (List.mem_map_of_mem member)) absent
      batch)

/-- The rows always have room for what is packed. A gathering fetch without a
fault leaves each packed component that is not read from memory as its source
says, in the row that its number gives, and keeps all rows without a
component. -/
theorem fetch_packs (l : Layout) :
    l.compile ≠ .error .rows ∧ l.packed.length ≤ 4 * 32 ∧
    ∀ k call batch out, l.compile = .ok k → l.strategy = .gather →
      k.fetch call batch = (out, none) →
        (∀ (row : Fin 32) (column : Fin 4),
          let before := (batch.rows.get row).get column
          let after := (out.rows.get row).get column
          match l.packed[4 * row.val + column.val]? with
          | some (a, c) => ¬ a.Reads c → after = a.unread c before
          | none => after = before) ∧
        (l.cut = none → out.cutMask = batch.cutMask) := by
  refine ⟨?_, l.length_packed, ?_⟩
  · intro full
    obtain ⟨a, _, refused⟩ := compile_eq_error_iff.mp full
    cases refused
  · intro k call batch out compiled gather fetched
    have targets := targets_outputs compiled (ready_padded gather call)
    rw [eq_putAll_of_fetch compiled gather fetched]
    refine ⟨?_, fun uncut => cutMask_putAll gather uncut targets batch⟩
    intro row column before after
    have few : 4 * row.val + column.val < 128 := by omega
    have found := read?_putAll_place gather targets few batch
    rw [Fetch.place_row, Batch.read?_row, Batch.read?_row, Option.or_some]
      at found
    have left : after = _ := Option.some.inj found
    rw [packedOutput?] at left
    cases packed : l.packed[4 * row.val + column.val]? with
    | none =>
        rw [packed] at left
        exact left
    | some entry =>
        intro unread
        rw [packed] at left
        exact left.trans (Attribute.component?_of_not_reads unread _ _ before)

def sparse : Layout where
  width := .u8
  attributes := [
    { stream := 0, offset := 0, format := ⟨.r8g8, .unorm, by decide⟩,
      packing := 0b1011
      sources := #v[.memory, .skip, .zero, .memory] },
    { stream := 1, offset := 0, format := ⟨.r32, .float, by decide⟩,
      packing := 0b0110
      sources := #v[.memory, .oneInt, .memory, .oneFloat] }]
  length_le := by decide
  stream_lt := by decide

def sparseCall : Call where
  streams := #[.ofData #[1, 2, 3, 4] 2]
  indices := #[0, 1]
  lastIndex := 2

theorem fetch_packs_sparse :
    ∃ k out, sparse.compile = .ok k ∧
      k.fetch sparseCall { Batch.filled 7 with cutMask := .splat 5 } =
        (out, none) ∧
      (out.rows.get 0).get 1 = .splat 7 ∧
      (out.rows.get 0).get 2 = .splat Single.one ∧
      (out.rows.get 0).get 3 = .splat 1 ∧ (out.rows.get 1).get 0 = .splat 0 ∧
      (out.rows.get 1).get 1 = .splat 7 ∧ (out.rows.get 31).get 3 = .splat 7 ∧
      out.cutMask = .splat 5 := by
  obtain ⟨k, compiled⟩ := exists_kernel (l := sparse) rfl
  have bound : sparseCall.stream 0 = .ok (.ofData #[1, 2, 3, 4] 2) := rfl
  have binds : ∀ s, sparse.Needs s → sparseCall.Binds s := by
    rintro s ⟨a, member, rfl, gathers | ⟨c, packed, reads⟩⟩
    · cases gathers
    rcases List.mem_cons.mp member with rfl | member
    · exact ⟨_, bound, by decide⟩
    · obtain rfl := List.mem_singleton.mp member
      exfalso
      revert c
      decide
  have fetched := fetch_eq_of_checked compiled rfl (by decide) binds
    { Batch.filled 7 with cutMask := .splat 5 }
  obtain ⟨rows, cut⟩ := (fetch_packs sparse).2.2 k _ _ _ compiled rfl fetched
  exact ⟨k, _, compiled, fetched, rows 0 1 (by decide), rows 0 2 (by decide),
    rows 0 3 (by decide), rows 1 0 (by decide), rows 1 1, rows 31 3, cut rfl⟩

end Layout
end VertexFetch
