import Mathlib.Algebra.Group.Nat.Defs
import VertexFetch.Proofs.Graph.Holds

namespace VertexFetch

structure View where
  argument : Argument → UInt32
  field : UInt8 → Stream.Field → UInt32
  word : UInt8 → Nat → Nat → UInt32
  index : IndexWidth → Nat → UInt32
  word_lt : ∀ s offset length, (word s offset length).toNat < 2 ^ (8 * length)
  lastIndex_le : (argument .lastIndex).toNat ≤ 0x7fffffff

/-- The call has what the view shows of the given streams and of the first
`reach` index bytes. -/
structure View.Shows (v : View) (streams : UInt8 → Prop) (reach : Nat)
    (call : Call) : Prop where
  argument : ∀ a, call.argument a = v.argument a
  stream : ∀ s, streams s →
    ∃ st, call.stream s = .ok st ∧ (∀ f, st.field f = v.field s f) ∧
    ∀ offset length, offset + length ≤ (v.field s .size).toNat → length ≤ 4 →
      readWord st.data offset length = .ok (v.word s offset length)
  index : ∀ w offset, offset + w.bytes ≤ reach →
    call.index w offset = .ok (v.index w offset)

theorem View.Shows.bound {v : View} {streams : UInt8 → Prop} {reach : Nat}
    {call : Call} (shows : v.Shows streams reach call) {s : UInt8}
    (seen : streams s) :
    ∃ st, call.stream s = .ok st ∧ ∀ f, st.field f = v.field s f := by
  obtain ⟨st, bound, fields, _⟩ := shows.stream s seen
  exact ⟨st, bound, fields⟩

namespace Graph.Holds

variable {g : Graph} {v : View} {streams : UInt8 → Prop} {reach : Nat} {r : Ref}

theorem shownArgument (formed : g.WellFormed) {a : Argument}
    (found : g.op? r = some (.argument a)) :
    g.Holds (v.Shows streams reach) r fun _ => v.argument a :=
  argument formed found fun _ shows => shows.argument a

theorem shownField (formed : g.WellFormed) {s : UInt8} {f : Stream.Field}
    (seen : streams s) (found : g.op? r = some (.stream s f)) :
    g.Holds (v.Shows streams reach) r fun _ => v.field s f := by
  refine stream formed found ?_
  intro call shows
  obtain ⟨st, bound, fields⟩ := shows.bound seen
  exact ⟨st, bound, fields f⟩

end Graph.Holds
end VertexFetch
