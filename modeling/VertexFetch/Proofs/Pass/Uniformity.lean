import VertexFetch.Pass.Promotion
import VertexFetch.Proofs.Graph.Settled

/-! Promotion leaves no lane that it could take from elsewhere. Its memo answers
exactly for the nodes that count as uniform, so that a search for a lane stops
just where nothing more is known, and stops there again when it is repeated. -/

namespace VertexFetch

namespace Graph

/-- Nodes that count as uniform: by their operation, or because all their
operands do. -/
inductive CountsUniform (g : Graph) : Ref → Prop
  | always {r : Ref} {op : Op Ref} : g.op? r = some op →
        op.uniformity = .always →
      CountsUniform g r
  | operands {r : Ref} {op : Op Ref} : g.op? r = some op →
        op.uniformity = .ifOperands →
      (∀ a ∈ op.operands, CountsUniform g a) → CountsUniform g r

variable {g h : Graph} {r : Ref}

theorem countsUniform_iff {op : Op Ref} (found : g.op? r = some op) :
    g.CountsUniform r ↔ op.uniformity = .always ∨
      op.uniformity = .ifOperands ∧ ∀ a ∈ op.operands, g.CountsUniform a := by
  constructor
  · intro uniform
    cases uniform with
    | always found' kind =>
        cases found.symm.trans found'
        exact .inl kind
    | operands found' kind all =>
        cases found.symm.trans found'
        exact .inr ⟨kind, all⟩
  · rintro (kind | ⟨kind, all⟩)
    · exact .always found kind
    · exact .operands found kind all

theorem not_countsUniform (none : g.op? r = none) : ¬g.CountsUniform r := by
  intro uniform
  cases uniform with
  | always found _ => cases none.symm.trans found
  | operands found _ _ => cases none.symm.trans found

theorem countsUniform_iff_of_le (ordered : g.Ordered) (grown : g ≤ h)
    (inside : r < g.size) : h.CountsUniform r ↔ g.CountsUniform r := by
  induction r using Nat.strongRecOn with
  | ind r induction =>
      have here := op?_eq_of_le grown inside
      cases found : g.op? r with
      | none =>
          rw [found] at here
          exact iff_of_false (not_countsUniform here) (not_countsUniform found)
      | some op =>
          have below : ∀ a ∈ op.operands, h.CountsUniform a ↔
              g.CountsUniform a := by
            intro a named
            have lt := ordered r _ (op?_eq_some.mp found) a named
            exact induction a lt (Nat.lt_trans lt inside)
          rw [countsUniform_iff found, countsUniform_iff (here.trans found)]
          simp +contextual only [below]

/-- The answers in a memo are for nodes of the graph, and right, also the
negative ones. -/
def Exact (g : Graph) (memo : UniformMemo) : Prop :=
  ∀ r answer, memo[r]? = some answer → r < g.size ∧
    (answer = true ↔ g.CountsUniform r)

structure Tells (g : Graph) (P : Prop) (answer : Bool × UniformMemo) :
    Prop where
  right : answer.1 = true ↔ P
  exact : g.Exact answer.2

theorem exact_empty (g : Graph) : g.Exact ∅ := by
  intro r answer entry
  simp at entry

theorem Exact.of_le {memo : UniformMemo} (exact : g.Exact memo)
    (ordered : g.Ordered) (grown : g ≤ h) : h.Exact memo := by
  intro r answer entry
  obtain ⟨inside, right⟩ := exact r answer entry
  rw [countsUniform_iff_of_le ordered grown inside]
  exact ⟨lt_of_le grown inside, right⟩

theorem Exact.insert {memo : UniformMemo} (exact : g.Exact memo)
    (inside : r < g.size) {answer : Bool}
    (right : answer = true ↔ g.CountsUniform r) :
    g.Exact (memo.insert r answer) := by
  intro x answer' entry
  rw [Std.HashMap.getElem?_insert] at entry
  split at entry
  next same =>
    cases entry
    rw [← beq_iff_eq.mp same]
    exact ⟨inside, right⟩
  next => exact exact x answer' entry

private theorem allUniform_tells {bound : Ref}
    (each : ∀ a < bound, ∀ memo, g.Exact memo →
      g.Tells (g.CountsUniform a) (g.isUniform a memo))
    {rs : List Ref} (below : ∀ a ∈ rs, a < bound) (memo : UniformMemo)
    (exact : g.Exact memo) :
    g.Tells (∀ a ∈ rs, g.CountsUniform a) (g.allUniform bound rs memo) := by
  induction rs generalizing memo with
  | nil =>
      rw [allUniform]
      exact ⟨by simp, exact⟩
  | cons r rest induction =>
      rw [allUniform, if_pos (below r (by simp))]
      have first := each r (below r (by simp)) memo exact
      have others :=
        induction (fun a later => below a (by simp [later])) _ first.exact
      refine ⟨?_, others.exact⟩
      simp only [Bool.and_eq_true, first.right, others.right, List.mem_cons,
        forall_eq_or_imp]

theorem isUniform_tells (ordered : g.Ordered) (inside : r < g.size)
    (memo : UniformMemo) (exact : g.Exact memo) :
    g.Tells (g.CountsUniform r) (g.isUniform r memo) := by
  induction r using Nat.strongRecOn generalizing memo with
  | ind r induction =>
      rw [isUniform]
      cases entry : memo[r]? with
      | some known => exact ⟨(exact r known entry).2, exact⟩
      | none =>
          have recorded :
              ∀ answer : Bool × UniformMemo,
                g.Tells (g.CountsUniform r) answer →
              g.Tells (g.CountsUniform r)
                (answer.1, answer.2.insert r answer.1) :=
            fun _ tells => ⟨tells.right, tells.exact.insert inside tells.right⟩
          apply recorded
          cases found : g.op? r with
          | none => exact ⟨by simp [not_countsUniform found], exact⟩
          | some op =>
              dsimp only
              have uniform := countsUniform_iff found
              cases kind : op.uniformity with
              | always => exact ⟨by simp [uniform, kind], exact⟩
              | never => exact ⟨by simp [uniform, kind], exact⟩
              | ifOperands =>
                  have below : ∀ a ∈ op.operands, a < r :=
                    ordered r _ (op?_eq_some.mp found)
                  have each := fun a lt =>
                    induction a lt (Nat.lt_trans lt inside)
                  have tells := allUniform_tells each below memo exact
                  exact ⟨by simp [uniform, kind, tells.right], tells.exact⟩

/-- Nothing is known of a lane of `source` but that it is one: the node does not
count as uniform, holds no lane numbers, and if it is an insertion, then one
into this lane, of a scalar that does not count as uniform. -/
structure Stuck (g : Graph) (lane : UInt8) (source : Ref) : Prop where
  varies : ¬g.CountsUniform source
  numbers : g.op? source ≠ some .laneNumbers
  insertion : ∀ {l vector scalar}, g.op? source =
    some (.insert l vector scalar) →
    l = lane ∧ ¬g.CountsUniform scalar

variable {lane : UInt8} {source : Ref}

theorem Stuck.of_le (stuck : g.Stuck lane source) (ordered : g.Ordered)
    (grown : g ≤ h) (inside : source < g.size) : h.Stuck lane source := by
  have here := op?_eq_of_le grown inside
  constructor
  · rw [countsUniform_iff_of_le ordered grown inside]
    exact stuck.varies
  · rw [here]
    exact stuck.numbers
  · intro l vector scalar found
    rw [here] at found
    obtain ⟨same, varies⟩ := stuck.insertion found
    have below : g.Below source scalar :=
      below_operand found (by simp [Op.operands])
    rw [countsUniform_iff_of_le ordered grown (below.lt_size ordered)]
    exact ⟨same, varies⟩

def LaneSettled (g : Graph) (r : Ref) : Prop :=
  ∀ lane source, g.op? r = some (.extract lane source) → g.Stuck lane source

theorem laneSettled_of_ne {op : Op Ref} (found : g.op? r = some op)
    (other : ∀ lane source, op ≠ .extract lane source) : g.LaneSettled r := by
  intro lane source found'
  cases found.symm.trans found'
  exact absurd rfl (other lane source)

theorem seekLane_of_stuck (ordered : g.Ordered) {memo : UniformMemo}
    (exact : g.Exact memo) (inside : source < g.size)
    (stuck : g.Stuck lane source) :
    (g.seekLane lane source source memo).1 = .keep := by
  have tells := isUniform_tells ordered inside memo exact
  rw [seekLane]
  dsimp only
  rw [if_pos rfl, if_neg (mt tells.right.mp stuck.varies)]
  split
  next found => exact absurd found stuck.numbers
  next l vector scalar found =>
    obtain ⟨same, varies⟩ := stuck.insertion found
    have below : g.Below source scalar :=
      below_operand found (by simp [Op.operands])
    have tells' := isUniform_tells ordered (below.lt_size ordered) _ tells.exact
    rw [if_pos same]
    exact if_neg (mt tells'.right.mp varies)
  next => rfl

theorem Stuck.laneSettled (stuck : g.Stuck lane source)
    (found : g.op? r = some (.extract lane source)) : g.LaneSettled r := by
  intro lane' source' found'
  cases found.symm.trans found'
  exact stuck

theorem Stuck.outcome (stuck : g.Stuck lane source) (ordered : g.Ordered)
    {extracted : Ref} (found : g.op? r = some (.extract lane extracted))
    (below : g.Below r source) :
    g.Outcome LaneSettled r
      (if source = extracted then .keep
        else .create (.extract lane source)) := by
  split
  next same =>
    subst same
    exact .keep (stuck.laneSettled found)
  next =>
    have node :=
      op?_eq_some.mpr (g.get?_push_size (.value (.extract lane source)))
    have stuck' :=
      stuck.of_le ordered (g.le_push (.value (.extract lane source)))
        (below.lt_size ordered)
    exact .create (by simpa [Op.operands] using below) (stuck'.laneSettled node)

theorem seekLane_outcome (ordered : g.Ordered) {extracted : Ref}
    (found : g.op? r = some (.extract lane extracted)) (memo : UniformMemo)
    (exact : g.Exact memo) (below : g.Below r source) :
    g.Outcome LaneSettled r (g.seekLane lane extracted source memo).1 ∧
      g.Exact (g.seekLane lane extracted source memo).2 := by
  induction source using Nat.strongRecOn generalizing memo with
  | ind source induction =>
      have inside := below.lt_size ordered
      have tells := isUniform_tells ordered inside memo exact
      rw [seekLane]
      dsimp only
      split
      next uniform => exact ⟨.reuse below, tells.exact⟩
      next varies =>
      rw [tells.right] at varies
      split
      next numbers =>
        have node :=
          op?_eq_some.mpr (g.get?_push_size (.value (.word lane.toUInt32)))
        exact ⟨.create (by simp [Op.operands])
          (laneSettled_of_ne node (by simp)), tells.exact⟩
      next l vector scalar inserted =>
        have operands : g.operands source = [vector, scalar] :=
          operands_of_get? (op?_eq_some.mp inserted)
        have vectorBelow : g.Below r vector := below.next (by simp [operands])
        have scalarBelow : g.Below r scalar := below.next (by simp [operands])
        have vectorLt : vector < source :=
          operand_lt ordered (by simp [operands])
        split
        next same =>
          have tells' :=
            isUniform_tells ordered (scalarBelow.lt_size ordered) _ tells.exact
          refine ⟨?_, tells'.exact⟩
          dsimp only
          split
          next uniform => exact .reuse scalarBelow
          next varies' =>
            rw [tells'.right] at varies'
            have stuck : g.Stuck lane source := by
              refine ⟨varies, by simp [inserted], ?_⟩
              intro l' vector' scalar' inserted'
              cases inserted.symm.trans inserted'
              exact ⟨same, varies'⟩
            exact stuck.outcome ordered found below
        next => exact induction vector vectorLt _ tells.exact vectorBelow
      next numbers insertion =>
        have stuck : g.Stuck lane source :=
          ⟨varies, numbers, fun inserted => absurd inserted (insertion _ _ _)⟩
        exact ⟨stuck.outcome ordered found below, tells.exact⟩

end Graph

theorem settling_promotionRule :
    Settling Graph.promotionRule Graph.Exact Graph.LaneSettled where
  grow ordered grown exact := exact.of_le ordered grown
  stays := by
    intro g h r ordered grown inside settled lane source found
    rw [Graph.op?_eq_of_le grown inside] at found
    have below : g.Below r source :=
      Graph.below_operand found (by simp [Op.operands])
    exact (settled lane source found).of_le ordered grown
      (below.lt_size ordered)
  outcome := by
    intro g memo r n ordered exact node
    unfold Graph.promotionRule
    split
    next lane source found =>
      have below : g.Below r source :=
        Graph.below_operand found (by simp [Op.operands])
      exact Graph.seekLane_outcome ordered found memo exact below
    next other =>
      refine ⟨.keep ?_, exact⟩
      intro lane source found
      exact absurd found (other lane source)
  rest := by
    intro g memo r ordered exact settled
    unfold Graph.promotionRule
    split
    next lane source found =>
      have below : g.Below r source :=
        Graph.below_operand found (by simp [Op.operands])
      exact Graph.seekLane_of_stuck ordered exact (below.lt_size ordered)
        (settled lane source found)
    next => rfl

end VertexFetch
