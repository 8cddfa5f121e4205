import VertexFetch.Proofs.Graph.Images

namespace VertexFetch

namespace Renaming

end Renaming

namespace Program

variable {σ : Type} {rule : Graph → σ → Ref → Replacement × σ} {memory : σ}
  {p : Program}

end Program

namespace Graph

variable {g h : Graph} {r : Ref}

/-- What a rule may do with a node: keep it if it is settled, or put something
in its place that is made from its operands and, where it is new, is settled. -/
inductive Outcome (settled : Graph → Ref → Prop) (g : Graph) (r : Ref) :
    Replacement → Prop
  | keep : settled g r → Outcome settled g r .keep
  | reuse {s : Ref} : g.Below r s → Outcome settled g r (.reuse s)
  | create {op : Op Ref} : (∀ a ∈ op.operands, g.Below r a) →
      settled (g.push (.value op)).2 g.size → Outcome settled g r (.create op)

end Graph

/-- A rule that keeps just what is settled, as long as its memory is `right`. -/
structure Settling {σ : Type} (rule : Graph → σ → Ref → Replacement × σ)
    (right : Graph → σ → Prop) (settled : Graph → Ref → Prop) : Prop where
  grow : ∀ {g h : Graph} {memory}, g.Ordered → g ≤ h → right g memory →
    right h memory
  stays : ∀ {g h : Graph} {r}, g.Ordered → g ≤ h → r < g.size → settled g r →
    settled h r
  outcome : ∀ {g : Graph} {memory r n}, g.Ordered → right g memory →
    g.get? r = some n →
    g.Outcome settled r (rule g memory r).1 ∧ right g (rule g memory r).2
  rest : ∀ {g : Graph} {memory r}, g.Ordered → right g memory → settled g r →
    (rule g memory r).1 = .keep

namespace Settling

variable {σ : Type} {rule : Graph → σ → Ref → Replacement × σ}
  {right : Graph → σ → Prop} {settled : Graph → Ref → Prop} {memory : σ}
  {p : Program}

theorem steady (settling : Settling rule right settled) :
    Steady rule fun g P memory => right g memory ∧ ∀ x, P x → settled g x where
  grow ordered grown closed holds :=
    ⟨settling.grow ordered grown holds.1, fun x image =>
      settling.stays ordered grown (closed.lt x image) (holds.2 x image)⟩
  step := by
    intro g P memory r n ordered closed holds found operands
    obtain ⟨outcome, right'⟩ := settling.outcome ordered holds.1 found
    rw [← Graph.operands_of_get? found] at operands
    generalize (rule g memory r).1 = replacement at outcome
    cases outcome with
    | keep done =>
        refine ⟨.keep, right', ?_⟩
        rintro x (image | rfl)
        · exact holds.2 x image
        · exact done
    | reuse below =>
        have image := closed.below operands below
        refine ⟨.reuse image, right', ?_⟩
        rintro x (image | rfl)
        · exact holds.2 x image
        · exact holds.2 _ image
    | @create op below made =>
        have grown := g.le_push (.value op)
        refine ⟨.create fun a named => closed.below operands (below a named),
          settling.grow ordered grown right', ?_⟩
        rintro x (image | rfl)
        · exact settling.stays ordered grown (closed.lt x image)
            (holds.2 x image)
        · exact made

theorem tracks_swept (settling : Settling rule right settled)
    (ordered : p.Ordered) (start : right p.graph memory) :
    Sweep.Tracks (fun g P memory => right g memory ∧ ∀ x, P x → settled g x)
      p.graph p.order (p.swept rule memory) :=
  Program.tracks_swept settling.steady ordered ⟨start, fun _ => False.elim⟩

end Settling
end VertexFetch
