import VertexFetch.Proofs.Graph.Settled
import VertexFetch.Proofs.Pass.Merging

namespace VertexFetch

namespace Graph

structure Tabled (g : Graph) (P : Ref → Prop) (known : Std.HashMap Node Ref) :
    Prop where
  entry : ∀ {form first}, known[form]? = some first →
    P first ∧ ∃ m, g.get? first = some m ∧ m.canonical = form
  image : ∀ {x m}, P x → g.get? x = some m → known[m.canonical]? = some x

variable {g : Graph} {P : Ref → Prop} {known : Std.HashMap Node Ref} {r : Ref}
  {n : Node}

theorem Tabled.reuse (tabled : g.Tabled P known) {first : Ref}
    (holds : P first) : g.Tabled (fun x => P x ∨ x = first) known := by
  have same : (fun x => P x ∨ x = first) = P := by
    funext x
    apply propext
    constructor
    · rintro (image | rfl)
      · exact image
      · exact holds
    · exact .inl
  rwa [same]

theorem Tabled.insert (tabled : g.Tabled P known) (found : g.get? r = some n)
    (absent : known[n.canonical]? = none) :
    g.Tabled (fun x => P x ∨ x = r) (known.insert n.canonical r) := by
  constructor
  · intro form first entry
    rw [Std.HashMap.getElem?_insert] at entry
    split at entry
    next same =>
      cases entry
      exact ⟨.inr rfl, n, found, beq_iff_eq.mp same⟩
    next =>
      obtain ⟨image, node⟩ := tabled.entry entry
      exact ⟨.inl image, node⟩
  · rintro x m (image | rfl) node
    · have entry := tabled.image image node
      rw [Std.HashMap.getElem?_insert, if_neg]
      · exact entry
      · intro same
        rw [← beq_iff_eq.mp same, absent] at entry
        cases entry
    · cases found.symm.trans node
      exact Std.HashMap.getElem?_insert_self

theorem steady_sharingRule : Steady sharingRule Tabled where
  grow := by
    intro g h P known _ grown closed tabled
    constructor
    · intro form first entry
      obtain ⟨image, m, found, canonical⟩ := tabled.entry entry
      exact ⟨image, m, grown _ _ found, canonical⟩
    · intro x m image found
      rw [get?_eq_of_le grown (closed.lt x image)] at found
      exact tabled.image image found
  step := by
    intro g P known r n _ _ tabled found _
    simp only [sharingRule, found]
    cases entry : known[n.canonical]? with
    | some first =>
        have image := (tabled.entry entry).1
        exact ⟨.reuse image, tabled.reuse image⟩
    | none => exact ⟨.keep, tabled.insert found entry⟩

end Graph

namespace Program

variable {p : Program}

theorem tracks_share (ordered : p.Ordered) :
    Sweep.Tracks Graph.Tabled p.graph p.order
      (p.swept Graph.sharingRule ∅) := by
  apply tracks_swept Graph.steady_sharingRule ordered
  constructor
  · intro form first entry
    simp at entry
  · exact fun image => image.elim

end Program
end VertexFetch
