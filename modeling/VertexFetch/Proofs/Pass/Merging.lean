import VertexFetch.Proofs.Pass.Sharing

namespace VertexFetch

namespace Op

variable {ρ τ υ : Type}

def shape (op : Op ρ) : Op Unit := op.map fun _ => ()

theorem shape_map (f : ρ → τ) (op : Op ρ) : (op.map f).shape = op.shape :=
  op.map_map f fun _ => ()

theorem eq_of_shape {op op' : Op ρ} (shape : op.shape = op'.shape)
    (operands : op.operands = op'.operands) : op = op' := by
  cases op <;> cases op' <;> cases shape <;> simp_all [Op.operands]

theorem length_operands_of_shape {op : Op ρ} {op' : Op τ}
    (shape : op.shape = op'.shape) :
    op.operands.length = op'.operands.length := by
  have operands := congrArg (fun op => op.operands.length) shape
  simpa only [Op.shape, operands_map, List.length_map] using operands

theorem map_eq_map_iff {f : ρ → υ} {g : τ → υ} {op : Op ρ} {op' : Op τ} :
    op.map f = op'.map g ↔ op.shape = op'.shape ∧
      ∀ (k : Nat) (a : ρ) (b : τ), op.operands[k]? = some a →
        op'.operands[k]? = some b →
        f a = g b := by
  constructor
  · intro same
    refine ⟨by rw [← shape_map f, same, shape_map], ?_⟩
    intro k a b left right
    have operands : op.operands.map f = op'.operands.map g := by
      rw [← operands_map, same, operands_map]
    have images := congrArg (fun list => list[k]?) operands
    simpa only [List.getElem?_map, left, right, Option.map_some,
      Option.some.injEq] using images
  · rintro ⟨shape, agree⟩
    apply eq_of_shape
    · rw [shape_map, shape_map, shape]
    · rw [operands_map, operands_map]
      refine List.ext_getElem (by simp [length_operands_of_shape shape]) ?_
      intro k inside inside'
      rw [List.getElem_map, List.getElem_map]
      exact agree k _ _ (List.getElem?_eq_getElem _)
        (List.getElem?_eq_getElem _)

end Op

namespace Node

theorem map_congr {f g : Ref → Ref} {n : Node}
    (agree : ∀ a ∈ n.operands, f a = g a) : n.map f = n.map g := by
  cases n with
  | value op => exact congrArg Node.value (Op.map_congr agree)
  | store target source =>
      exact congrArg (Node.store target) (agree source (by simp [operands]))

theorem map_eq_binary {f : Ref → Ref} {n : Node} {h : Binary} {x y : Ref}
    (mapped : n.map f = .value (.binary h x y)) :
    ∃ a b, n = .value (.binary h a b) ∧ f a = x ∧ f b = y := by
  cases n with
  | store target source => cases mapped
  | value op =>
      cases op with
      | binary h' a b =>
          cases mapped
          exact ⟨a, b, rfl, rfl, rfl⟩
      | _ => cases mapped

theorem Alike.eq_or_swap {m n : Node} (alike : m.Alike n) :
    m = n ∨ ∃ (f : Binary) (a b : Ref), f.commutes = true ∧
      m = .value (.binary f a b) ∧
      n = .value (.binary f b a) := by
  cases alike with
  | refl => exact .inl rfl
  | @swap f a b commutes => exact .inr ⟨f, a, b, commutes, rfl, rfl⟩

theorem canonical_eq_iff {m n : Node} :
    m.canonical = n.canonical ↔ m.Alike n := by
  refine ⟨alike_of_canonical_eq, ?_⟩
  intro alike
  cases alike with
  | refl => rfl
  | swap a b commutes =>
      simp only [canonical, commutes, if_true, Nat.min_comm b a,
        Nat.max_comm b a]

end Node

namespace Graph

/-- Nodes with the same operation on operands that are the same, one by one or,
if they may be exchanged, crosswise. -/
inductive Same (g : Graph) : Ref → Ref → Prop
  | value {r s : Ref} {op op' : Op Ref} : g.op? r = some op →
        g.op? s = some op' →
      op.shape = op'.shape →
      (∀ (k : Nat) (a b : Ref), op.operands[k]? = some a →
        op'.operands[k]? = some b →
        Same g a b) → Same g r s
  | swap {r s : Ref} {f : Binary} {a b c d : Ref} : f.commutes = true →
      g.op? r = some (.binary f a b) → g.op? s = some (.binary f c d) →
      Same g a d → Same g b c → Same g r s
  | store {r s : Ref} {target : Target} {a b : Ref} :
        g.get? r = some (.store target a) →
      g.get? s = some (.store target b) → Same g a b → Same g r s

end Graph

namespace Sweep

variable {origin : Graph} {done : List Ref} {s : Sweep (Std.HashMap Node Ref)}
  {r : Ref}

/-- The table has the image of each node that is done, under the form that it
has by then. -/
def Knows (s : Sweep (Std.HashMap Node Ref)) (origin : Graph)
    (done : List Ref) : Prop :=
  ∀ x ∈ done, ∀ n, origin.get? x = some n →
    s.memory[(n.map s.moved.apply).canonical]? = some (s.moved.apply x)

theorem step_sharing {n : Node}
    (node : (s.graph.rename s.moved r).2.get? (s.graph.rename s.moved r).1 =
      some n) :
    ∃ image, (s.step Graph.sharingRule r).moved = s.moved.set r image ∧
      (s.step Graph.sharingRule r).memory[n.canonical]? = some image ∧
      ∀ (form : Node) first, s.memory[form]? = some first →
        (s.step Graph.sharingRule r).memory[form]? = some first := by
  obtain ⟨graph, moved, memory⟩ := s
  simp only [Sweep.step]
  generalize graph.rename moved r = renamed at node ⊢
  obtain ⟨here, middle⟩ := renamed
  simp only [Graph.sharingRule, node]
  cases entry : memory[n.canonical]? with
  | some first => exact ⟨first, rfl, entry, fun _ _ known => known⟩
  | none =>
      refine ⟨here, rfl, Std.HashMap.getElem?_insert_self, ?_⟩
      intro form first known
      rw [Std.HashMap.getElem?_insert]
      split
      next same =>
        rw [← beq_iff_eq.mp same, entry] at known
        cases known
      next => exact known

theorem Knows.step {inv : Graph → Std.HashMap Node Ref → Prop}
    (sane : Sane inv origin done s) (formed : origin.WellFormed)
    (knows : s.Knows origin done)
    (closed : ∀ x ∈ done, ∀ a ∈ origin.operands x, a ∈ done) {n : Node}
    (found : origin.get? r = some n) (fresh : r ∉ done)
    (operands : ∀ a ∈ n.operands, a ∈ done) :
    (s.step Graph.sharingRule r).Knows origin (done ++ [r]) := by
  obtain ⟨_, _, node⟩ := sane.rename formed found operands
  obtain ⟨image, moved, entry, grows⟩ := step_sharing node
  have inside : r < s.moved.images.size := by
    rw [sane.images]
    exact Graph.get?_lt found
  have elsewhere :
      ∀ x ∈ done, (s.moved.set r image).apply x = s.moved.apply x := by
    intro x member
    have other : x ≠ r := fun same => fresh (same ▸ member)
    rw [Renaming.apply_set s.moved inside, if_neg other]
  intro x member m found'
  have form : m.map (s.moved.set r image).apply = m.map s.moved.apply := by
    apply Node.map_congr
    intro a named
    apply elsewhere
    rcases List.mem_append.mp member with old | new
    · exact closed x old a (by rwa [Graph.operands_of_get? found'])
    · rw [List.mem_singleton.mp new, found] at found'
      cases found'
      exact operands a named
  rw [moved, form]
  rcases List.mem_append.mp member with old | new
  · rw [elsewhere x old]
    exact grows _ _ (knows x old m found')
  · rw [List.mem_singleton.mp new] at found' ⊢
    rw [found] at found'
    cases found'
    rw [Renaming.apply_set s.moved inside, if_pos rfl]
    exact entry

end Sweep

namespace Program

variable {p : Program} {r s : Ref}

/-- The node that stands for a node once nodes are shared. -/
def merged (p : Program) : Ref → Ref :=
  (p.swept Graph.sharingRule ∅).moved.apply

theorem outputs_share (p : Program) :
    p.share.outputs = p.outputs.map p.merged := rfl

theorem sharing_sane (formed : p.WellFormed) :
    Sweep.Sane Graph.Stands p.graph p.order (p.swept Graph.sharingRule ∅) :=
  sane_swept Graph.sharingRule_lawful formed p.graph.stands_empty

theorem sharing_knows (formed : p.WellFormed) :
    (p.swept Graph.sharingRule ∅).Knows p.graph p.order := by
  have both := (order_finishes formed).1.foldl
    (f := Sweep.step Graph.sharingRule)
    (K := fun done s => Sweep.Sane Graph.Stands p.graph done s ∧
      s.Knows p.graph done)
    ⟨.start formed.graph p.graph.stands_empty, by simp [Sweep.Knows]⟩ ?_
  · exact both.2
  intro done s r before ⟨sane, knows⟩ fresh operands needed
  obtain ⟨n, found⟩ := Graph.get?_of_lt (needed.lt formed)
  rw [Graph.operands_of_get? found] at operands
  refine ⟨sane.step Graph.sharingRule_lawful formed.graph found operands,
    knows.step sane formed.graph ?_ found fresh operands⟩
  exact fun x member a => before.operand_mem member

theorem nodeKept_merged (formed : p.WellFormed) (needed : p.Needs r) :
    Graph.NodeKept p.graph p.share.graph r (p.merged r) :=
  (sharing_sane formed).kept r ((mem_order formed).mpr needed)

/-- Nodes become one just if what they have become is alike. -/
theorem merged_eq_iff_alike (formed : p.WellFormed) (needed : p.Needs r)
    (needed' : p.Needs s) {m n : Node} (found : p.graph.get? r = some m)
    (found' : p.graph.get? s = some n) :
    p.merged r = p.merged s ↔ (m.map p.merged).Alike (n.map p.merged) := by
  have entry := sharing_knows formed r ((mem_order formed).mpr needed) m found
  have entry' :=
    sharing_knows formed s ((mem_order formed).mpr needed') n found'
  rw [← Node.canonical_eq_iff]
  constructor
  · intro same
    obtain ⟨o, node, form⟩ := (sharing_sane formed).memory _ _ entry
    obtain ⟨o', node', form'⟩ := (sharing_sane formed).memory _ _ entry'
    unfold merged at same
    rw [same, node'] at node
    cases node
    exact form.symm.trans form'
  · intro same
    unfold merged at same
    rw [same] at entry
    exact Option.some.inj (entry.symm.trans entry')

theorem Needs.operand_of_op? {op : Op Ref} {a : Ref} (needed : p.Needs r)
    (found : p.graph.op? r = some op) (named : a ∈ op.operands) : p.Needs a :=
  .operand needed (by rwa [Graph.operands_of_get? (Graph.op?_eq_some.mp found)])

theorem Needs.source {target : Target} {a : Ref} (needed : p.Needs r)
    (found : p.graph.get? r = some (.store target a)) : p.Needs a :=
  .operand needed (by simp [Graph.operands_of_get? found, Node.operands])

theorem merged_eq_of_same (formed : p.WellFormed) (same : p.graph.Same r s)
    (needed : p.Needs r) (needed' : p.Needs s) : p.merged r = p.merged s := by
  induction same with
  | @value r s op op' found found' shape _ induction =>
      rw [merged_eq_iff_alike formed needed needed' (Graph.op?_eq_some.mp found)
        (Graph.op?_eq_some.mp found')]
      have same : op.map p.merged = op'.map p.merged := by
        refine Op.map_eq_map_iff.mpr ⟨shape, ?_⟩
        intro k a b left right
        exact induction k a b left right
          (needed.operand_of_op? found (List.mem_of_getElem? left))
          (needed'.operand_of_op? found' (List.mem_of_getElem? right))
      simp only [Node.map, same]
      exact .refl _
  | @swap r s f a b c d commutes found found' _ _ first second =>
      rw [merged_eq_iff_alike formed needed needed' (Graph.op?_eq_some.mp found)
        (Graph.op?_eq_some.mp found')]
      have left : p.merged a = p.merged d :=
        first (needed.operand_of_op? found (by simp [Op.operands]))
          (needed'.operand_of_op? found' (by simp [Op.operands]))
      have right : p.merged b = p.merged c :=
        second (needed.operand_of_op? found (by simp [Op.operands]))
          (needed'.operand_of_op? found' (by simp [Op.operands]))
      simp only [Node.map, Op.map, left, right]
      exact .swap _ _ commutes
  | store found found' _ induction =>
      rw [merged_eq_iff_alike formed needed needed' found found']
      simp only [Node.map,
        induction (needed.source found) (needed'.source found')]
      exact .refl _

theorem same_of_merged_eq (formed : p.WellFormed) (needed : p.Needs r)
    (needed' : p.Needs s) (same : p.merged r = p.merged s) :
    p.graph.Same r s := by
  induction r using Nat.strongRecOn generalizing s with
  | ind r induction =>
      obtain ⟨m, found⟩ := Graph.get?_of_lt (needed.lt formed)
      obtain ⟨n, found'⟩ := Graph.get?_of_lt (needed'.lt formed)
      have alike :=
        (merged_eq_iff_alike formed needed needed' found found').mp same
      have below := formed.graph.ordered r m found
      have operand :
          ∀ a ∈ m.operands, ∀ b ∈ n.operands, p.merged a = p.merged b →
          p.graph.Same a b := by
        intro a named b named' same
        refine induction a (below a named) (.operand needed ?_)
          (.operand needed' ?_) same
        · rwa [Graph.operands_of_get? found]
        · rwa [Graph.operands_of_get? found']
      rcases alike.eq_or_swap with equal | ⟨f, x, y, commutes, left, right⟩
      · cases m with
        | value op =>
            cases n with
            | value op' =>
                obtain ⟨shape, images⟩ :=
                  Op.map_eq_map_iff.mp (Node.value.inj equal)
                refine .value (Graph.op?_eq_some.mpr found)
                  (Graph.op?_eq_some.mpr found') shape ?_
                intro k a b left right
                exact operand a (List.mem_of_getElem? left) b
                  (List.mem_of_getElem? right) (images k a b left right)
            | store target source => cases equal
        | store target source =>
            cases n with
            | value op' => cases equal
            | store target' source' =>
                obtain ⟨rfl, images⟩ := Node.store.inj equal
                exact .store found found'
                  (operand source (by simp [Node.operands]) source'
                    (by simp [Node.operands]) images)
      · obtain ⟨a, b, rfl, rfl, rfl⟩ := Node.map_eq_binary left
        obtain ⟨c, d, rfl, first, second⟩ := Node.map_eq_binary right
        refine .swap commutes (Graph.op?_eq_some.mpr found)
          (Graph.op?_eq_some.mpr found') ?_ ?_
        · exact operand a (by simp [Node.operands, Op.operands]) d
            (by simp [Node.operands, Op.operands]) second.symm
        · exact operand b (by simp [Node.operands, Op.operands]) c
            (by simp [Node.operands, Op.operands]) first.symm

theorem merged_eq_iff (formed : p.WellFormed) (needed : p.Needs r)
    (needed' : p.Needs s) : p.merged r = p.merged s ↔ p.graph.Same r s :=
  ⟨same_of_merged_eq formed needed needed',
    fun same => merged_eq_of_same formed same needed needed'⟩

end Program
end VertexFetch
