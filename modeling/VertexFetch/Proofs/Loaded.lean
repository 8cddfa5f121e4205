import VertexFetch.Proofs.Bounds
import VertexFetch.Proofs.Fetch.Memory
import VertexFetch.Proofs.Support

namespace VertexFetch

namespace Layout

variable {l : Layout} {k : Kernel} {call : Call}

theorem binds_of_ofData (bound : ∀ a ∈ l.attributes, ∃ data pitch,
    call.stream a.stream.toUInt8 = .ok (.ofData data pitch)) :
    ∀ s, l.Needs s → call.Binds s := by
  intro s ⟨a, member, same, _⟩
  obtain ⟨data, pitch, here⟩ := bound a member
  exact same ▸ Call.binds_ofData here

end Layout
end VertexFetch
