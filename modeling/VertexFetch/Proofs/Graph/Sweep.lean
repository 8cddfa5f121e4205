import VertexFetch.Proofs.Graph.Images
import VertexFetch.Proofs.Graph.Sound

/-! Sweeps keep the meaning of a program if their rule does: at each node the
operands have been replaced by nodes that stand for them, so the renamed node
stands for the old one, and what the rule puts in its place stands for it
too. -/

namespace VertexFetch

namespace Graph

/-- A replacement that may be made for a node. -/
inductive Legal (g : Graph) (r : Ref) : Replacement → Prop
  | keep : Legal g r .keep
  | reuse {s : Ref} : NodeKept g g r s → Legal g r (.reuse s)
  | create {op : Op Ref} : g.IsValue r → (∀ a ∈ op.operands, g.IsValue a) →
      (∀ a b, op ≠ .binary .mulSingle a b) →
      (∀ call, g.Sound call r → (∀ a ∈ op.operands, g.Sound call a) ∧
        op.eval call (g.value call) = g.value call r) →
      Legal g r (.create op)

structure Advance (g h : Graph) (r s : Ref) : Prop where
  formed : h.WellFormed
  grown : g ≤ h
  kept : NodeKept g h r s

theorem Legal.advance {g : Graph} (formed : g.WellFormed) {r : Ref} {n : Node}
    (found : g.get? r = some n) {replacement : Replacement}
    (legal : g.Legal r replacement) :
    Advance g (g.replace r replacement).2 r (g.replace r replacement).1 := by
  cases legal with
  | keep =>
      exact ⟨formed, g.le_refl, .grow formed formed.ordered g.le_refl found⟩
  | reuse kept => exact ⟨formed, g.le_refl, kept⟩
  | @create op isValue operands notProduct sound =>
      have formed' := formed.push (n := .value op) operands
      have grown := g.le_push (.value op)
      have node : (g.push (.value op)).2.op? g.size = some op :=
        op?_eq_some.mpr (g.get?_push_size (.value op))
      refine ⟨formed', grown, .value isValue ⟨⟨op, node⟩, ?_⟩⟩
      intro call here
      obtain ⟨operandsSound, same⟩ := sound call here
      obtain ⟨v, value⟩ := here.value
      have evaluated : op.eval call ((g.push (.value op)).2.value call) =
          .ok v := by
        rw [← value, ← same]
        apply Op.eval_congr
        intro a named
        exact value_mono formed formed'.ordered grown call (operands a named)
      refine ⟨?_, ?_⟩
      · refine .of_eval formed'.ordered node ?_ evaluated ?_
        · exact fun a named =>
            (operandsSound a named).mono formed formed'.ordered grown
        · exact fun a b product => absurd product (notProduct a b)
      · exact ((value_eq formed'.ordered node call).trans evaluated).trans
          value.symm

theorem Legal.operand {g : Graph} (formed : g.WellFormed) {r s : Ref}
    {op : Op Ref} (found : g.op? r = some op) (named : s ∈ op.operands)
    (same : ∀ call, g.Sound call r →
      g.value call s = op.eval call (g.value call)) :
    g.Legal r (.reuse s) := by
  have value := formed.operand r _ (op?_eq_some.mp found) s named
  refine .reuse (.value ⟨op, found⟩ ⟨value, ?_⟩)
  intro call sound
  rw [value_eq formed.ordered found]
  exact ⟨sound.operand found named, same call sound⟩

theorem Legal.literal {g : Graph} (formed : g.WellFormed) {r : Ref}
    {op : Op Ref} (found : g.op? r = some op) {new : Op Ref} {w : UInt32}
    (literal : new.literal? = some w)
    (same : ∀ call, g.Sound call r →
      op.eval call (g.value call) = .ok (.splat w)) :
    g.Legal r (.create new) := by
  have leaf : new.operands = [] ∧ (∀ a b, new ≠ .binary .mulSingle a b) ∧
      ∀ call read, new.eval call read = .ok (.splat w) := by
    cases new with
    | single bits =>
        cases literal
        exact ⟨rfl, by simp, fun _ _ => rfl⟩
    | word bits =>
        cases literal
        exact ⟨rfl, by simp, fun _ _ => rfl⟩
    | _ => cases literal
  obtain ⟨operands, notProduct, evaluated⟩ := leaf
  refine .create ⟨op, found⟩ (by simp [operands]) notProduct ?_
  intro call sound
  refine ⟨by simp [operands], ?_⟩
  rw [evaluated, value_eq formed.ordered found, same call sound]

theorem value_of_literal? {g : Graph} (ordered : g.Ordered) {r : Ref}
    {w : UInt32} (literal : g.literal? r = some w) (call : Call) :
    g.value call r = .ok (.splat w) := by
  unfold literal? at literal
  cases found : g.op? r with
  | none => simp [found] at literal
  | some op =>
      rw [value_eq ordered found]
      simp only [found, Option.bind_some] at literal
      cases op with
      | single bits => cases literal; rfl
      | word bits => cases literal; rfl
      | _ => cases literal

end Graph

/-- A rule whose replacements are legal as long as its memory satisfies
`inv`. -/
structure Lawful {σ : Type} (rule : Graph → σ → Ref → Replacement × σ)
    (inv : Graph → σ → Prop) : Prop where
  grow : ∀ g h memory, g.WellFormed → h.WellFormed → g ≤ h → inv g memory →
    inv h memory
  legal : ∀ g memory r n, g.WellFormed → inv g memory → g.get? r = some n →
    g.Legal r (rule g memory r).1 ∧ inv g (rule g memory r).2

namespace Sweep

variable {σ : Type} {rule : Graph → σ → Ref → Replacement × σ}
  {inv : Graph → σ → Prop} {origin : Graph} {done : List Ref} {s : Sweep σ}
  {r : Ref}

/-- A sweep over `origin` in which the nodes of `done` have been replaced. -/
structure Sane (inv : Graph → σ → Prop) (origin : Graph) (done : List Ref)
    (s : Sweep σ) : Prop where
  formed : s.graph.WellFormed
  grown : origin ≤ s.graph
  images : s.moved.images.size = origin.size
  kept : ∀ x ∈ done, Graph.NodeKept origin s.graph x (s.moved.apply x)
  memory : inv s.graph s.memory

private theorem Sane.kept_map (sane : Sane inv origin done s)
    (formed : origin.WellFormed) {n : Node} (found : origin.get? r = some n)
    (operands : ∀ a ∈ n.operands, a ∈ done)
    {h : Graph} (formed' : h.WellFormed) (grown : s.graph ≤ h) {image : Ref}
    (node : h.get? image = some (n.map s.moved.apply)) :
    Graph.NodeKept origin h r image := by
  have kept : ∀ a ∈ n.operands,
      Graph.ValueKept origin h a (s.moved.apply a) := by
    intro a named
    have value := formed.operand r n found a named
    have before := (sane.kept a (operands a named)).valueKept value
    exact before.trans (.grow sane.formed formed'.ordered grown before.isValue)
  cases n with
  | store target source =>
      exact .store found node (kept source (by simp [Node.operands]))
  | value op =>
      have old : origin.op? r = some op := Graph.op?_eq_some.mpr found
      have new : h.op? image = some (op.map s.moved.apply) :=
        Graph.op?_eq_some.mpr node
      refine .value ⟨op, old⟩ ⟨⟨_, new⟩, ?_⟩
      intro call sound
      obtain ⟨v, value⟩ := sound.value
      have operandSound : ∀ a ∈ op.operands, origin.Sound call a :=
        fun a named => sound.operand old named
      have evaluated : (op.map s.moved.apply).eval call (h.value call) =
          .ok v := by
        rw [Op.eval_map, ← value, Graph.value_eq formed.ordered old]
        apply Op.eval_congr
        intro a named
        exact ((kept a named).sound call (operandSound a named)).2
      refine ⟨?_, ?_⟩
      · refine .of_eval formed'.ordered new ?_ evaluated
          (Op.numeric_map (sound.numeric old value))
        intro b renamed
        rw [Op.operands_map] at renamed
        obtain ⟨a, named, rfl⟩ := List.mem_map.mp renamed
        exact ((kept a named).sound call (operandSound a named)).1
      · exact ((Graph.value_eq formed'.ordered new call).trans evaluated).trans
          value.symm

theorem Sane.rename (sane : Sane inv origin done s) (formed : origin.WellFormed)
    {n : Node} (found : origin.get? r = some n)
    (operands : ∀ a ∈ n.operands, a ∈ done) :
    (s.graph.rename s.moved r).2.WellFormed ∧
      s.graph ≤ (s.graph.rename s.moved r).2 ∧
      (s.graph.rename s.moved r).2.get? (s.graph.rename s.moved r).1 =
        some (n.map s.moved.apply) := by
  refine Graph.rename_grows (sane.grown r n found) sane.formed
    (sane.formed.push ?_)
  intro b mapped
  rw [Node.operands_map] at mapped
  obtain ⟨a, named, rfl⟩ := List.mem_map.mp mapped
  have value := formed.operand r n found a named
  exact ((sane.kept a (operands a named)).valueKept value).isValue

theorem Sane.step (lawful : Lawful rule inv) (sane : Sane inv origin done s)
    (formed : origin.WellFormed) {n : Node} (found : origin.get? r = some n)
    (operands : ∀ a ∈ n.operands, a ∈ done) :
    Sane inv origin (done ++ [r]) (s.step rule r) := by
  obtain ⟨graph, moved, memory⟩ := s
  obtain ⟨formed₁, grown₁, node⟩ := sane.rename formed found operands
  have kept₁ := sane.kept_map formed found operands formed₁ grown₁ node
  simp only [Sweep.step]
  generalize graph.rename moved r = renamed at formed₁ grown₁ node kept₁ ⊢
  obtain ⟨first, middle⟩ := renamed
  have memory₁ := lawful.grow _ _ _ sane.formed formed₁ grown₁ sane.memory
  obtain ⟨legal, memory₂⟩ := lawful.legal _ _ _ _ formed₁ memory₁ node
  obtain ⟨formed₃, grown₃, kept₃⟩ := legal.advance formed₁ node
  have grown := Graph.le_trans grown₁ grown₃
  have inside : r < moved.images.size := by
    rw [show moved.images.size = origin.size from sane.images]
    exact Graph.get?_lt found
  refine ⟨formed₃, Graph.le_trans sane.grown grown, ?_, ?_,
    lawful.grow _ _ _ formed₁ formed₃ grown₃ memory₂⟩
  · simpa [Renaming.set] using sane.images
  · intro x member
    rw [Renaming.apply_set moved inside]
    by_cases same : x = r
    · rw [if_pos same, same]
      exact kept₁.trans kept₃
    · rw [if_neg same]
      have before := sane.kept x (by simpa [same] using member)
      obtain ⟨m, image⟩ := Graph.get?_of_lt before.lt
      exact before.trans (.grow sane.formed formed₃.ordered grown image)

theorem Sane.start (formed : origin.WellFormed) {memory : σ}
    (holds : inv origin memory) :
    Sane inv origin [] ⟨origin, Renaming.identity origin.size, memory⟩ where
  formed := formed
  grown := origin.le_refl
  images := by simp [Renaming.identity]
  kept := by simp
  memory := holds

theorem Sane.foldl {P : Ref → Prop} (lawful : Lawful rule inv)
    (formed : origin.WellFormed) (inside : ∀ x, P x → x < origin.size)
    (sane : Sane inv origin [] s) (finishes : Graph.Finishes origin P [] done) :
    Sane inv origin done (done.foldl (Sweep.step rule) s) := by
  refine finishes.foldl sane ?_
  intro done s r _ sane _ operands property
  obtain ⟨n, found⟩ := Graph.get?_of_lt (inside r property)
  rw [Graph.operands_of_get? found] at operands
  exact sane.step lawful formed found operands

end Sweep

namespace Program

/-- The outputs of one program stand for those of the other, one by one. -/
structure Kept (p q : Program) : Prop where
  formed : q.WellFormed
  outputs : ∃ f, q.outputs = p.outputs.map f ∧
    ∀ r ∈ p.outputs, Graph.NodeKept p.graph q.graph r (f r)

variable {p q : Program}

theorem Kept.refl (formed : p.WellFormed) : p.Kept p := by
  refine ⟨formed, id, by simp, ?_⟩
  intro r member
  obtain ⟨n, found⟩ := Graph.get?_of_lt (formed.output_lt r member)
  exact .grow formed.graph formed.graph.ordered p.graph.le_refl found

theorem Kept.trans {o : Program} (first : o.Kept p) (second : p.Kept q) :
    o.Kept q := by
  obtain ⟨f, outputs, kept⟩ := first.outputs
  obtain ⟨f', outputs', kept'⟩ := second.outputs
  refine ⟨second.formed, f' ∘ f, ?_, ?_⟩
  · rw [outputs', outputs, List.map_map]
  · intro r member
    refine (kept r member).trans (kept' (f r) ?_)
    rw [outputs]
    exact List.mem_map_of_mem member

theorem Kept.target? (kept : p.Kept q) :
    q.outputs.map q.graph.target? = p.outputs.map p.graph.target? := by
  obtain ⟨f, outputs, nodes⟩ := kept.outputs
  rw [outputs, List.map_map]
  apply List.map_congr_left
  intro r member
  exact (nodes r member).target?

theorem Kept.storesOnce (kept : p.Kept q) (once : p.StoresOnce) :
    q.StoresOnce := by
  refine ⟨?_, by rw [kept.target?]; exact once.nodup⟩
  obtain ⟨f, outputs, nodes⟩ := kept.outputs
  intro s mapped
  rw [outputs] at mapped
  obtain ⟨r, member, rfl⟩ := List.mem_map.mp mapped
  rw [(nodes r member).target?]
  exact once.store r member

theorem sane_swept {σ : Type} {rule : Graph → σ → Ref → Replacement × σ}
    {inv : Graph → σ → Prop} (lawful : Lawful rule inv) (formed : p.WellFormed)
    {memory : σ} (start : inv p.graph memory) :
    Sweep.Sane inv p.graph p.order (p.swept rule memory) :=
  (Sweep.Sane.start formed.graph start).foldl lawful formed.graph
    (fun _ needed => needed.lt formed) (order_finishes formed).1

/-- A sweep with a lawful rule keeps the program. -/
theorem kept_sweepWith {σ : Type} {rule : Graph → σ → Ref → Replacement × σ}
    {inv : Graph → σ → Prop} (lawful : Lawful rule inv) (formed : p.WellFormed)
    {memory : σ} (start : inv p.graph memory) :
    p.Kept (p.sweepWith rule memory) := by
  have sane := sane_swept lawful formed start
  obtain ⟨_, outputs⟩ := order_finishes formed
  refine ⟨⟨sane.formed, ?_⟩, _, rfl,
    fun r member => sane.kept r (outputs r member)⟩
  intro s mapped
  obtain ⟨r, member, rfl⟩ := List.mem_map.mp mapped
  exact (sane.kept r (outputs r member)).lt

theorem kept_sweep {rule : Graph → Ref → Replacement} (formed : p.WellFormed)
    (legal : ∀ (g : Graph) r n, g.WellFormed → g.get? r = some n →
      g.Legal r (rule g r)) :
    p.Kept (p.sweep rule) := by
  have lawful : Lawful (fun g (_ : Unit) r => (rule g r, ())) fun _ _ => True :=
    ⟨fun _ _ _ _ _ _ _ => trivial,
      fun g _ r n formed _ found => ⟨legal g r n formed found, trivial⟩⟩
  exact kept_sweepWith lawful formed trivial

end Program
end VertexFetch
