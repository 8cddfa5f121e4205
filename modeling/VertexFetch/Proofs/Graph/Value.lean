import VertexFetch.Graph.Value

namespace VertexFetch

namespace Graph

/-- The nodes of one graph stand at the same positions in the other. -/
instance : LE Graph where
  le g h := ∀ r n, g.get? r = some n → h.get? r = some n

theorem le_refl (g : Graph) : g ≤ g :=
  fun _ _ found => found

theorem le_trans {g h k : Graph} (first : g ≤ h) (second : h ≤ k) : g ≤ k :=
  fun r n found => second r n (first r n found)

theorem get?_lt {g : Graph} {r : Ref} {n : Node} (found : g.get? r = some n) :
    r < g.size := by
  obtain ⟨inside, _⟩ := Array.getElem?_eq_some_iff.mp found
  exact inside

theorem get?_of_lt {g : Graph} {r : Ref} (inside : r < g.size) :
    ∃ n, g.get? r = some n :=
  ⟨g.nodes[r], Array.getElem?_eq_some_iff.mpr ⟨inside, rfl⟩⟩

theorem get?_push_size (g : Graph) (n : Node) :
    (g.push n).2.get? g.size = some n := by
  simp [get?_push]

theorem le_push (g : Graph) (n : Node) : g ≤ (g.push n).2 := by
  intro r m found
  rw [get?_push, if_neg (Nat.ne_of_lt (get?_lt found))]
  exact found

theorem op?_eq_some {g : Graph} {r : Ref} {op : Op Ref} :
    g.op? r = some op ↔ g.get? r = some (.value op) := by
  unfold op?
  cases g.get? r with
  | none => simp
  | some n => cases n <;> simp [Node.op?]

theorem target?_eq_some {g : Graph} {r : Ref} {target : Target} :
    g.target? r = some target ↔
      ∃ source, g.get? r = some (.store target source) := by
  unfold target?
  cases g.get? r with
  | none => simp
  | some n => cases n <;> simp [Node.target?]

theorem operands_of_get? {g : Graph} {r : Ref} {n : Node}
    (found : g.get? r = some n) : g.operands r = n.operands := by
  simp [operands, found]

theorem op?_mono {g h : Graph} (grown : g ≤ h) {r : Ref} {op : Op Ref}
    (found : g.op? r = some op) : h.op? r = some op :=
  op?_eq_some.mpr (grown _ _ (op?_eq_some.mp found))

theorem ordered_iff {g : Graph} :
    g.Ordered ↔ ∀ r, r < g.size → ∀ a ∈ g.operands r, a < r := by
  constructor
  · intro ordered r inside a named
    obtain ⟨n, found⟩ := get?_of_lt inside
    rw [operands_of_get? found] at named
    exact ordered r n found a named
  · intro checked r n found a named
    rw [← operands_of_get? found] at named
    exact checked r (get?_lt found) a named

instance (g : Graph) : Decidable g.Ordered :=
  decidable_of_iff _ ordered_iff.symm

def IsValue (g : Graph) (r : Ref) : Prop :=
  ∃ op, g.op? r = some op

theorem IsValue.mono {g h : Graph} (grown : g ≤ h) {r : Ref}
    (value : g.IsValue r) : h.IsValue r := by
  obtain ⟨op, found⟩ := value
  exact ⟨op, op?_mono grown found⟩

theorem IsValue.lt {g : Graph} {r : Ref} (value : g.IsValue r) :
    r < g.size := by
  obtain ⟨op, found⟩ := value
  exact get?_lt (op?_eq_some.mp found)

/-- Operands come before the nodes that name them, and no store is one. -/
structure WellFormed (g : Graph) : Prop where
  ordered : g.Ordered
  operand : ∀ r n, g.get? r = some n → ∀ a ∈ n.operands, g.IsValue a

theorem wellFormed_iff {g : Graph} :
    g.WellFormed ↔
      ∀ r, r < g.size → ∀ a ∈ g.operands r, a < r ∧
        (g.op? a).isSome = true := by
  constructor
  · intro formed r inside a named
    obtain ⟨n, found⟩ := get?_of_lt inside
    rw [operands_of_get? found] at named
    refine ⟨formed.ordered r n found a named, ?_⟩
    obtain ⟨op, value⟩ := formed.operand r n found a named
    simp [value]
  · intro checked
    refine ⟨?_, ?_⟩
    · intro r n found a named
      rw [← operands_of_get? found] at named
      exact (checked r (get?_lt found) a named).1
    · intro r n found a named
      rw [← operands_of_get? found] at named
      exact Option.isSome_iff_exists.mp (checked r (get?_lt found) a named).2

instance (g : Graph) : Decidable g.WellFormed :=
  decidable_of_iff _ wellFormed_iff.symm

theorem wellFormed_empty : WellFormed {} where
  ordered r n found := by simp [get?] at found
  operand r n found := by simp [get?] at found

theorem WellFormed.push {g : Graph} (formed : g.WellFormed) {n : Node}
    (operands : ∀ a ∈ n.operands, g.IsValue a) : (g.push n).2.WellFormed where
  ordered r m found a named := by
    rw [get?_push] at found
    split at found
    next fresh =>
      cases found
      rw [fresh]
      exact (operands a named).lt
    next => exact formed.ordered r m found a named
  operand r m found a named := by
    rw [get?_push] at found
    split at found
    next =>
      cases found
      exact (operands a named).mono (le_push g n)
    next => exact (formed.operand r m found a named).mono (le_push g n)

theorem value_eq {g : Graph} (ordered : g.Ordered) {r : Ref} {op : Op Ref}
    (found : g.op? r = some op) (call : Call) :
    g.value call r = op.eval call (g.value call) := by
  rw [value, found]
  apply Op.eval_congr
  intro a named
  exact if_pos (ordered r _ (op?_eq_some.mp found) a named)

theorem value_mono {g h : Graph} (formed : g.WellFormed) (ordered : h.Ordered)
    (grown : g ≤ h) (call : Call) {r : Ref} (value : g.IsValue r) :
    h.value call r = g.value call r := by
  induction r using Nat.strongRecOn with
  | ind r induction =>
      obtain ⟨op, found⟩ := value
      have node := op?_eq_some.mp found
      rw [value_eq formed.ordered found,
        value_eq ordered (op?_mono grown found)]
      apply Op.eval_congr
      intro a named
      exact induction a (formed.ordered r _ node a named)
        (formed.operand r _ node a named)

end Graph

namespace Program

/-- The nodes that the outputs are made from. -/
inductive Needs (p : Program) : Ref → Prop
  | output {r : Ref} : r ∈ p.outputs → Needs p r
  | operand {r a : Ref} : Needs p r → a ∈ p.graph.operands r → Needs p a

structure Ordered (p : Program) : Prop where
  graph : p.graph.Ordered
  output_lt : ∀ r ∈ p.outputs, r < p.graph.size

instance (p : Program) : Decidable p.Ordered :=
  decidable_of_iff (p.graph.Ordered ∧ ∀ r ∈ p.outputs, r < p.graph.size)
    ⟨fun ⟨graph, outputs⟩ => ⟨graph, outputs⟩,
      fun ordered => ⟨ordered.graph, ordered.output_lt⟩⟩

structure WellFormed (p : Program) : Prop where
  graph : p.graph.WellFormed
  output_lt : ∀ r ∈ p.outputs, r < p.graph.size

instance (p : Program) : Decidable p.WellFormed :=
  decidable_of_iff (p.graph.WellFormed ∧ ∀ r ∈ p.outputs, r < p.graph.size)
    ⟨fun ⟨graph, outputs⟩ => ⟨graph, outputs⟩,
      fun formed => ⟨formed.graph, formed.output_lt⟩⟩

theorem WellFormed.ordered {p : Program} (formed : p.WellFormed) : p.Ordered :=
  ⟨formed.graph.ordered, formed.output_lt⟩

/-- The outputs are stores, no two of them to one target. -/
structure StoresOnce (p : Program) : Prop where
  store : ∀ r ∈ p.outputs, ∃ target, p.graph.target? r = some target
  nodup : (p.outputs.map p.graph.target?).Nodup

end Program
end VertexFetch
