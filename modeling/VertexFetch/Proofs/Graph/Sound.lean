import VertexFetch.Proofs.Graph.Value

namespace VertexFetch

/-- A product of singles has a number in every lane. -/
def Op.Numeric {ρ : Type} (op : Op ρ) (v : Lanes) : Prop :=
  ∀ a b, op = .binary .mulSingle a b → ∀ i, Single.isNaN (v.get i) = false

theorem Op.numeric_map {ρ τ : Type} {f : ρ → τ} {op : Op ρ} {v : Lanes}
    (numeric : op.Numeric v) : (op.map f).Numeric v := by
  intro a b product
  cases op with
  | binary g x y =>
      cases product
      exact numeric x y rfl
  | _ => cases product

namespace Graph

inductive Sound (g : Graph) (call : Call) : Ref → Prop
  | mk {r : Ref} {op : Op Ref} {v : Lanes} : g.op? r = some op →
      (∀ a ∈ op.operands, Sound g call a) → g.value call r = .ok v →
      op.Numeric v →
      Sound g call r

namespace Sound

variable {g h : Graph} {call : Call} {r : Ref}

theorem isValue (sound : g.Sound call r) : g.IsValue r := by
  obtain ⟨found, _, _, _⟩ := sound
  exact ⟨_, found⟩

theorem value (sound : g.Sound call r) : ∃ v, g.value call r = .ok v := by
  obtain ⟨_, _, value, _⟩ := sound
  exact ⟨_, value⟩

theorem operand (sound : g.Sound call r) {op : Op Ref}
    (found : g.op? r = some op) {a : Ref} (named : a ∈ op.operands) :
    g.Sound call a := by
  obtain ⟨found', operands, _, _⟩ := sound
  rw [found] at found'
  cases found'
  exact operands a named

theorem numeric (sound : g.Sound call r) {op : Op Ref}
    (found : g.op? r = some op) {v : Lanes} (value : g.value call r = .ok v) :
    op.Numeric v := by
  obtain ⟨found', _, value', numeric⟩ := sound
  rw [found] at found'
  cases found'
  rw [value] at value'
  cases value'
  exact numeric

theorem of_eval (ordered : g.Ordered) {op : Op Ref} (found : g.op? r = some op)
    (operands : ∀ a ∈ op.operands, g.Sound call a) {v : Lanes}
    (value : op.eval call (g.value call) = .ok v) (numeric : op.Numeric v) :
    g.Sound call r :=
  .mk found operands ((value_eq ordered found call).trans value) numeric

theorem mono (formed : g.WellFormed) (ordered : h.Ordered) (grown : g ≤ h)
    (sound : g.Sound call r) : h.Sound call r := by
  induction sound with
  | mk found _ value numeric operands =>
      refine .mk (op?_mono grown found) operands ?_ numeric
      rw [value_mono formed ordered grown call ⟨_, found⟩]
      exact value

end Sound

/-- Value `s` of `h` stands for value `r` of `g`. -/
structure ValueKept (g h : Graph) (r s : Ref) : Prop where
  isValue : h.IsValue s
  sound : ∀ call, g.Sound call r → h.Sound call s ∧
    h.value call s = g.value call r

/-- Node `s` of `h` stands for node `r` of `g`: for a value, or for a store to
the same target. -/
inductive NodeKept (g h : Graph) (r s : Ref) : Prop
  | value : g.IsValue r → ValueKept g h r s → NodeKept g h r s
  | store {target : Target} {a b : Ref} : g.get? r = some (.store target a) →
      h.get? s = some (.store target b) → ValueKept g h a b → NodeKept g h r s

variable {g h k : Graph} {r s t : Ref}

theorem ValueKept.refl (value : g.IsValue r) : ValueKept g g r r :=
  ⟨value, fun _ sound => ⟨sound, rfl⟩⟩

theorem ValueKept.trans (first : ValueKept g h r s)
    (second : ValueKept h k s t) : ValueKept g k r t := by
  refine ⟨second.isValue, ?_⟩
  intro call sound
  obtain ⟨middle, same⟩ := first.sound call sound
  obtain ⟨last, same'⟩ := second.sound call middle
  exact ⟨last, same'.trans same⟩

theorem ValueKept.grow (formed : g.WellFormed) (ordered : h.Ordered)
    (grown : g ≤ h) (value : g.IsValue r) : ValueKept g h r r :=
  ⟨value.mono grown, fun call sound =>
    ⟨sound.mono formed ordered grown,
      value_mono formed ordered grown call value⟩⟩

theorem NodeKept.lt (kept : NodeKept g h r s) : s < h.size := by
  cases kept with
  | value _ value => exact value.isValue.lt
  | store _ found _ => exact get?_lt found

theorem NodeKept.valueKept (kept : NodeKept g h r s) (value : g.IsValue r) :
    ValueKept g h r s := by
  cases kept with
  | value _ value => exact value
  | store found _ _ =>
      obtain ⟨op, value⟩ := value
      rw [op?_eq_some, found] at value
      cases value

theorem NodeKept.target? (kept : NodeKept g h r s) :
    h.target? s = g.target? r := by
  cases kept with
  | value first second =>
      obtain ⟨_, first⟩ := first
      obtain ⟨_, second⟩ := second.isValue
      simp [Graph.target?, op?_eq_some.mp first, op?_eq_some.mp second,
        Node.target?]
  | store first second _ => simp [Graph.target?, first, second, Node.target?]

theorem NodeKept.trans (first : NodeKept g h r s) (second : NodeKept h k s t) :
    NodeKept g k r t := by
  cases first with
  | value isValue value =>
      exact .value isValue (value.trans (second.valueKept value.isValue))
  | store found found' value =>
      cases second with
      | value isValue _ =>
          obtain ⟨op, value⟩ := isValue
          rw [op?_eq_some, found'] at value
          cases value
      | store again last value' =>
          rw [found'] at again
          cases again
          exact .store found last (value.trans value')

theorem NodeKept.grow (formed : g.WellFormed) (ordered : h.Ordered)
    (grown : g ≤ h) {n : Node} (found : g.get? r = some n) :
    NodeKept g h r r := by
  cases n with
  | value op =>
      have value : g.IsValue r := ⟨op, op?_eq_some.mpr found⟩
      exact .value value (.grow formed ordered grown value)
  | store target source =>
      have value := formed.operand r _ found source (by simp [Node.operands])
      exact .store found (grown _ _ found) (.grow formed ordered grown value)

end Graph
end VertexFetch
