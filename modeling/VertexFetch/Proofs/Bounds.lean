import VertexFetch.Proofs.Call
import VertexFetch.Proofs.Support

namespace VertexFetch

namespace Layout

variable {l : Layout} {k : Kernel} {call : Call}

theorem ready_of_checked (checked : l.checked = true) {call : Call} :
    l.Ready call.view l.Needs call.lastIndex := by
  refine ⟨fun _ => id, ?_, ?_⟩
  · rw [View.Readable, if_pos checked]
    exact call.toNat_lastIndex_le
  · intro _ a _
    rw [checked]
    exact call.view.covers_of_checked a _

theorem fetch_eq_of_checked (compiled : l.compile = .ok k)
    (checked : l.checked = true) (indices : call.lastIndex ≤ call.indices.size)
    (binds : ∀ s, l.Needs s → call.Binds s) (batch : Batch) :
    k.fetch call batch = (batch.putAll (l.outputs call.view), none) :=
  fetch_eq compiled (ready_of_checked checked)
    ((Call.Agree.refl _ _ call).shows indices binds binds) batch

/-- A checked fetch whose indices and needed streams are there finds no fault,
however its numbers fit together, and what it leaves depends on the bytes that
may be read alone. -/
theorem fetch_checked_safe (compiled : l.compile = .ok k)
    (checked : l.checked = true) (indices : call.lastIndex ≤ call.indices.size)
    (binds : ∀ s, l.Needs s → call.Binds s) (batch : Batch) :
    (k.fetch call batch).2 = none ∧
      ∀ other : Call, other.lastIndex ≤ other.indices.size →
        (∀ s, l.Needs s → other.Binds s) →
        call.Agree l.Needs call.lastIndex other →
        k.fetch other batch = k.fetch call batch := by
  have fetched := fetch_eq_of_checked compiled checked indices binds batch
  refine ⟨by rw [fetched], ?_⟩
  intro other indices' binds' agree
  rw [agree.lastIndex] at indices'
  rw [fetched, fetch_eq compiled (ready_of_checked checked)
    (agree.shows indices' binds binds') batch]

def colours : Layout where
  width := .u8
  attributes :=
    [{ stream := 0, offset := 1, format := ⟨.r8g8b8a8, .unorm, by decide⟩ }]
  cut := some 255
  length_le := by decide
  stream_lt := by decide

/-- A call whose stream claims more vertices than it has bytes for, with some
bytes after those that may be read. -/
def shortCall (data indices : List UInt8) : Call where
  streams := #[{
    data := (([1, 2, 3, 4, 5, 6, 7] : List UInt8) ++ data).toArray
    pitch := 4, size := 7, maxVertex := 9, partialSize := 3 }]
  indices := (([0, 1, 255] : List UInt8) ++ indices).toArray
  lastIndex := 3

theorem fetch_checked_safe_colours :
    ∃ k, colours.compile = .ok k ∧
      (k.fetch (shortCall [] []) (.filled 5)).2 = none ∧
      k.fetch (shortCall [8, 9] [1]) (.filled 5) =
        k.fetch (shortCall [] []) (.filled 5) := by
  obtain ⟨k, compiled⟩ := exists_kernel (l := colours) rfl
  have binds (data indices : List UInt8) :
      ∀ s, colours.Needs s → (shortCall data indices).Binds s := by
    rintro s ⟨a, member, rfl, _⟩
    obtain rfl := List.mem_singleton.mp member
    exact ⟨_, rfl, by simp [shortCall]⟩
  have agree : (shortCall [] []).Agree colours.Needs 3
      (shortCall [8, 9] [1]) := by
    refine ⟨rfl, rfl, rfl, rfl, rfl, by decide, ?_⟩
    rintro s ⟨a, member, rfl, _⟩ st st' bound bound'
    obtain rfl := List.mem_singleton.mp member
    cases bound
    cases bound'
    exact ⟨rfl, rfl, rfl, rfl, by decide⟩
  have inside :
      (shortCall [] []).lastIndex ≤ (shortCall [] []).indices.size := by
    decide
  have safe := fetch_checked_safe compiled rfl inside (binds [] []) (.filled 5)
  exact ⟨k, compiled, safe.1, safe.2 _ (by decide) (binds [8, 9] [1]) agree⟩

end Layout
end VertexFetch
