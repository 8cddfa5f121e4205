import VertexFetch.Pass.Selects
import VertexFetch.Proofs.Graph.Sweep
import VertexFetch.Proofs.Lanes
import VertexFetch.Proofs.Word

namespace VertexFetch

namespace Graph

variable {g : Graph}

theorem eval_select {call : Call} {c t f : Ref} {x y z : Lanes}
    (condition : g.value call c = .ok x) (first : g.value call t = .ok y)
    (second : g.value call f = .ok z) :
    (Op.select c t f).eval call (g.value call) =
      .ok (Vector.ofFn fun i => Word.select (x.get i) (y.get i) (z.get i)) := by
  simp only [Op.eval, condition, first, second]
  rfl

private theorem legal_select (formed : g.WellFormed) {r s c t f : Ref}
    (found : g.op? r = some (.select c t f)) (named : s ∈ [c, t, f])
    (same : ∀ call x y z v, g.value call c = .ok x → g.value call t = .ok y →
      g.value call f = .ok z → g.value call s = .ok v →
      ∀ i, v.get i = Word.select (x.get i) (y.get i) (z.get i)) :
    g.Legal r (.reuse s) := by
  refine .operand formed found named ?_
  intro call sound
  obtain ⟨x, condition⟩ :=
    (sound.operand found (a := c) (by simp [Op.operands])).value
  obtain ⟨y, first⟩ :=
    (sound.operand found (a := t) (by simp [Op.operands])).value
  obtain ⟨z, second⟩ :=
    (sound.operand found (a := f) (by simp [Op.operands])).value
  obtain ⟨v, value⟩ := (sound.operand found named).value
  rw [eval_select condition first second, value]
  refine congrArg Except.ok (Lanes.ext_get ?_)
  intro i
  rw [Lanes.get_ofFn]
  exact same call x y z v condition first second value i

theorem selectRule_legal (formed : g.WellFormed) (r : Ref) :
    g.Legal r (g.selectRule r) := by
  unfold selectRule
  split
  next c t f found =>
    split
    next zero =>
      refine legal_select formed found (by simp) ?_
      intro call x y z v condition first second value i
      rw [value_of_literal? formed.ordered zero] at condition
      cases condition
      rw [second] at value
      cases value
      rw [Lanes.get_splat, Word.select_zero]
    next =>
    split
    next ones =>
      refine legal_select formed found (by simp) ?_
      intro call x y z v condition first second value i
      rw [value_of_literal? formed.ordered ones] at condition
      cases condition
      rw [first] at value
      cases value
      rw [Lanes.get_splat, Word.select_ones]
    next =>
    split
    next equal =>
      refine legal_select formed found (by simp) ?_
      intro call x y z v condition first second value i
      rw [← equal, first] at second
      cases second
      rw [first] at value
      cases value
      rw [Word.select_same]
    next =>
    split
    next w u literal literal' =>
      split
      next spelled =>
        refine legal_select formed found (by simp) ?_
        intro call x y z v condition first second value i
        rw [value_of_literal? formed.ordered literal, spelled.1] at first
        rw [value_of_literal? formed.ordered literal', spelled.2.1] at second
        cases first
        cases second
        rw [condition] at value
        cases value
        rw [Lanes.get_splat, Lanes.get_splat, Word.select_ones_zero]
      next =>
      split
      next equal =>
        refine legal_select formed found (by simp) ?_
        intro call x y z v condition first second value i
        rw [value_of_literal? formed.ordered literal', ← equal,
          ← value_of_literal? formed.ordered literal call, first] at second
        cases second
        rw [first] at value
        cases value
        rw [Word.select_same]
      next => exact .keep
    next => exact .keep
  next => exact .keep

end Graph

theorem Program.kept_simplifySelects {p : Program} (formed : p.WellFormed) :
    p.Kept p.simplifySelects :=
  kept_sweep formed fun _ r _ formed _ => Graph.selectRule_legal formed r

end VertexFetch
