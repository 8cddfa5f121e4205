import VertexFetch.Proofs.Graph.Settled
import VertexFetch.Proofs.Pass.Folding
import VertexFetch.Proofs.Pass.Selects

namespace VertexFetch

def Rests (rule : Graph → Ref → Replacement) (g : Graph) (r : Ref) : Prop :=
  rule g r = .keep

namespace Graph

variable {g h : Graph} {r : Ref}

theorem literal?_eq_of_le (grown : g ≤ h) (inside : r < g.size) :
    h.literal? r = g.literal? r := by
  rw [literal?, literal?, op?_eq_of_le grown inside]

theorem isMask_eq_of_le (grown : g ≤ h) (inside : r < g.size) :
    h.isMask r = g.isMask r := by
  induction r using Nat.strongRecOn with
  | ind r induction =>
      have guarded : ∀ a, (if a < r then h.isMask a else false) =
          if a < r then g.isMask a else false := by
        intro a
        split
        next lt => exact induction a lt (Nat.lt_trans lt inside)
        next => rfl
      rw [isMask, isMask, op?_eq_of_le grown inside]
      simp only [guarded]

theorem selectRule_eq_of_le (ordered : g.Ordered) (grown : g ≤ h)
    (inside : r < g.size) : h.selectRule r = g.selectRule r := by
  have here := op?_eq_of_le grown inside
  cases found : g.op? r with
  | none => simp only [selectRule, here, found]
  | some op =>
      have literal : ∀ a ∈ op.operands, h.literal? a = g.literal? a :=
        fun _ named => literal?_eq_of_le grown
          ((below_operand found named).lt_size ordered)
      have mask : ∀ a ∈ op.operands, h.isMask a = g.isMask a :=
        fun _ named => isMask_eq_of_le grown
          ((below_operand found named).lt_size ordered)
      cases op with
      | select c t f =>
          simp only [Op.operands, List.mem_cons, List.not_mem_nil, or_false,
            forall_eq_or_imp, forall_eq] at literal mask
          simp only [selectRule, here, found, literal, mask]
      | _ => simp only [selectRule, here, found]

theorem selectRule_outcome (g : Graph) (r : Ref) :
    g.Outcome (Rests selectRule) r (g.selectRule r) := by
  generalize made : g.selectRule r = replacement
  have keep : replacement = .keep →
      g.Outcome (Rests selectRule) r replacement := by
    rintro rfl
    exact .keep made
  unfold selectRule at made
  split at made
  next c t f found =>
    have arm : ∀ s ∈ [c, t, f], g.Outcome (Rests selectRule) r (.reuse s) :=
      fun s named => .reuse (below_operand found named)
    split at made
    next => exact made ▸ arm f (by simp)
    next =>
    split at made
    next => exact made ▸ arm t (by simp)
    next =>
    split at made
    next => exact made ▸ arm t (by simp)
    next =>
    split at made
    next =>
      split at made
      next => exact made ▸ arm c (by simp)
      next =>
      split at made
      next => exact made ▸ arm t (by simp)
      next => exact keep made.symm
    next => exact keep made.symm
  next => exact keep made.symm

theorem foldOp_congr {op : Op Ref}
    (agree : ∀ a ∈ op.operands, h.op? a = g.op? a) :
    h.foldOp op = g.foldOp op := by
  have literal : ∀ a ∈ op.operands, h.literal? a = g.literal? a := by
    intro a named
    rw [literal?, literal?, agree a named]
  have single : ∀ a ∈ op.operands, h.single? a = g.single? a := by
    intro a named
    rw [single?, single?, agree a named]
  clear agree
  cases op with
  | binary f a b => cases f <;> simp_all [foldOp, Op.operands]
  | _ => simp_all [foldOp, Op.operands]

theorem foldingRule_eq_of_le (ordered : g.Ordered) (grown : g ≤ h)
    (inside : r < g.size) : h.foldingRule r = g.foldingRule r := by
  have here := op?_eq_of_le grown inside
  cases found : g.op? r with
  | none => simp only [foldingRule, here, found]
  | some op =>
      simp only [foldingRule, here, found]
      apply foldOp_congr
      intro a named
      exact op?_eq_of_le grown ((below_operand found named).lt_size ordered)

/-- What folding makes of an operation: the operation itself, one of its
operands, or an operation without operands of which nothing is known. -/
inductive Folded (op : Op Ref) : Replacement → Prop
  | keep : Folded op .keep
  | operand {a : Ref} : a ∈ op.operands → Folded op (.reuse a)
  | leaf {new : Op Ref} : new.operands = [] →
        (∀ g : Graph, g.foldOp new = .keep) →
      Folded op (.create new)

theorem folded_literal {op new : Op Ref} {w : UInt32}
    (literal : new.literal? = some w) : Folded op (.create new) := by
  cases new with
  | single bits => exact .leaf rfl fun _ => rfl
  | word bits => exact .leaf rfl fun _ => rfl
  | _ => cases literal

theorem folded_of_decides {f : Binary} {a b : Ref} {x y : Option UInt32}
    {replacement : Replacement} (decides : f.Decides a b x y replacement) :
    Folded (.binary f a b) replacement := by
  cases decides with
  | keep => exact .keep
  | left _ => exact .operand (by simp [Op.operands])
  | right _ => exact .operand (by simp [Op.operands])
  | literal literal _ => exact folded_literal literal

theorem folded_foldOp (g : Graph) (op : Op Ref) : Folded op (g.foldOp op) := by
  cases op with
  | binary f a b =>
      cases f with
      | mulSingle =>
          exact folded_of_decides (Binary.decides_simplifyProduct a b _ _)
      | _ =>
          simp only [foldOp]
          split
          next => exact folded_literal rfl
          next => exact folded_of_decides (Binary.decides_simplify _ a b _ _)
  | extract | permute | shuffle =>
      simp only [foldOp]
      split
      next => exact .operand (by simp [Op.operands])
      next => exact .keep
  | indicesMasked w mask =>
      simp only [foldOp]
      split
      next => exact folded_literal rfl
      next =>
      split
      next => exact .leaf rfl fun _ => rfl
      next => exact .keep
  | round | shuffleBytes | widen | index | load | gather =>
      simp only [foldOp]
      split
      next => exact folded_literal rfl
      next => exact .keep
  | _ => exact .keep

theorem foldingRule_outcome (g : Graph) (r : Ref) :
    g.Outcome (Rests foldingRule) r (g.foldingRule r) := by
  cases found : g.op? r with
  | none =>
      have kept : g.foldingRule r = .keep := by simp only [foldingRule, found]
      rw [kept]
      exact .keep kept
  | some op =>
      have folded : g.foldingRule r = g.foldOp op := by
        simp only [foldingRule, found]
      have cases := folded_foldOp g op
      rw [← folded] at cases
      generalize made : g.foldingRule r = replacement at cases
      cases cases with
      | keep => exact .keep made
      | operand named => exact .reuse (below_operand found named)
      | @leaf new none kept =>
          have node : (g.push (.value new)).2.op? g.size = some new :=
            op?_eq_some.mpr (g.get?_push_size (.value new))
          refine .create (by simp [none]) ?_
          simp only [Rests, foldingRule, node, kept]

end Graph

theorem settling_of_outcome {rule : Graph → Ref → Replacement}
    (stays : ∀ {g h : Graph} {r}, g.Ordered → g ≤ h → r < g.size →
      rule h r = rule g r)
    (outcome : ∀ (g : Graph) r, g.Outcome (Rests rule) r (rule g r)) :
    Settling (fun g (_ : Unit) r => (rule g r, ())) (fun _ _ => True)
      (Rests rule) where
  grow _ _ _ := trivial
  stays ordered grown inside kept := (stays ordered grown inside).trans kept
  outcome _ _ _ := ⟨outcome _ _, trivial⟩
  rest _ _ kept := kept

theorem settling_selectRule :
    Settling (fun g (_ : Unit) r => (g.selectRule r, ())) (fun _ _ => True)
      (Rests Graph.selectRule) :=
  settling_of_outcome Graph.selectRule_eq_of_le Graph.selectRule_outcome

theorem settling_foldingRule :
    Settling (fun g (_ : Unit) r => (g.foldingRule r, ())) (fun _ _ => True)
      (Rests Graph.foldingRule) :=
  settling_of_outcome Graph.foldingRule_eq_of_le Graph.foldingRule_outcome

end VertexFetch
