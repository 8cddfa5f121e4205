import VertexFetch.Proofs.Pass.Promotion
import VertexFetch.Proofs.Pass.Uniformity

namespace VertexFetch

namespace Graph

def answers : List (Graph × Ref) → UniformMemo → List Bool
  | [], _ => []
  | (g, r) :: rest, memo =>
      let (answer, memo) := g.isUniform r memo
      answer :: answers rest memo

/-- Queries that can be put in turn: each is about a node, operands come first,
and later graphs have the nodes of the earlier ones. -/
structure InTurn (queries : List (Graph × Ref)) : Prop where
  ordered : ∀ q ∈ queries, q.1.Ordered
  inside : ∀ q ∈ queries, q.2 < q.1.size
  grown : queries.Pairwise fun first second => first.1 ≤ second.1

variable {g : Graph} {r : Ref} {queries : List (Graph × Ref)}
  {memo : UniformMemo}

theorem CountsUniform.uniform (counts : g.CountsUniform r)
    (ordered : g.Ordered) :
    g.Uniform r := by
  induction counts with
  | always found kind => exact uniform_of_always ordered found kind
  | operands found kind _ induction =>
      exact uniform_of_operands ordered found kind induction

theorem InTurn.tail {q : Graph × Ref} (turn : InTurn (q :: queries)) :
    InTurn queries where
  ordered q' later := turn.ordered q' (List.mem_cons_of_mem q later)
  inside q' later := turn.inside q' (List.mem_cons_of_mem q later)
  grown := (List.pairwise_cons.mp turn.grown).2

theorem InTurn.exact_tail (turn : InTurn ((g, r) :: queries))
    (exact : g.Exact memo) :
    ∀ q ∈ queries, q.1.Exact (g.isUniform r memo).2 := by
  intro q later
  have ordered := turn.ordered (g, r) List.mem_cons_self
  have tells :=
    isUniform_tells ordered (turn.inside (g, r) List.mem_cons_self) memo exact
  exact tells.exact.of_le ordered ((List.pairwise_cons.mp turn.grown).1 q later)

theorem InTurn.answers_tell (turn : InTurn queries)
    (exact : ∀ q ∈ queries, q.1.Exact memo) {k : Nat}
    (asked : queries[k]? = some (g, r)) :
    ∃ answer, (answers queries memo)[k]? = some answer ∧
      (answer = true ↔ g.CountsUniform r) := by
  induction queries generalizing memo k with
  | nil => simp at asked
  | cons q rest induction =>
      obtain ⟨graph, node⟩ := q
      have first := exact (graph, node) List.mem_cons_self
      cases k with
      | zero =>
          cases asked
          have tells := isUniform_tells (turn.ordered _ List.mem_cons_self)
            (turn.inside _ List.mem_cons_self) memo first
          exact ⟨_, rfl, tells.right⟩
      | succ k => exact induction turn.tail (turn.exact_tail first) asked

/-- However many queries share a memo, and whatever nodes are added between
them, a query is answered as it would be alone: yes exactly for the nodes that
count as uniform. Where the answer is yes and the node has a value, all lanes of
the value are the same. -/
theorem answers_sound (turn : InTurn queries) {k : Nat}
    (asked : queries[k]? = some (g, r)) :
    ∃ answer, (answers queries ∅)[k]? = some answer ∧
      (answer = true ↔ g.CountsUniform r) ∧
      answer = (g.isUniform r ∅).1 ∧
      (answer = true → ∀ call v, g.value call r = .ok v →
        ∀ i j, v.get i = v.get j) := by
  have ordered := turn.ordered (g, r) (List.mem_of_getElem? asked)
  have alone :=
    isUniform_tells ordered
      (turn.inside (g, r) (List.mem_of_getElem? asked)) ∅ g.exact_empty
  obtain ⟨answer, given, right⟩ :=
    turn.answers_tell (fun q _ => q.1.exact_empty) asked
  refine ⟨answer, given, right,
    Bool.eq_iff_iff.mpr (right.trans alone.right.symm), ?_⟩
  intro positive call v value i j
  have uniform := ((right.mp positive).uniform ordered).lanes call v value
  rw [uniform.get i, uniform.get j]

def mixed : Graph :=
  ⟨#[.value (.argument .startVertex), .value .laneNumbers,
    .value (.binary .add 0 1), .value (.extract 5 2)]⟩

def extended : Graph := ⟨mixed.nodes.push (.value (.binary .mul 0 3))⟩

theorem inTurn_mixed :
    InTurn [(mixed, 3), (mixed, 2), (extended, 4), (extended, 2)] where
  ordered := by decide
  inside := by decide
  grown := by
    have grown : mixed ≤ extended := mixed.le_push _
    simp [grown, le_refl]

theorem answers_sound_mixed :
    InTurn [(mixed, 3), (mixed, 2), (extended, 4), (extended, 2)] ∧
      answers [(mixed, 3), (mixed, 2), (extended, 4), (extended, 2)] ∅ =
        [true, false, true, false] ∧
      extended.value { startVertex := 2 } 4 = .ok (.splat 14) ∧
      ∀ call v, extended.value call 4 = .ok v → ∀ i j, v.get i = v.get j := by
  have given : answers
      [(mixed, 3), (mixed, 2), (extended, 4), (extended, 2)] ∅ =
      [true, false, true, false] := by cbv
  obtain ⟨answer, told, _, _, sound⟩ := answers_sound inTurn_mixed (k := 2) rfl
  rw [given] at told
  exact ⟨inTurn_mixed,
    given, by with_unfolding_all rfl, sound (Option.some.inj told).symm⟩

end Graph
end VertexFetch
