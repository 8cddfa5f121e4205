import VertexFetch.Pass.Sharing
import VertexFetch.Proofs.Graph.Sweep
import VertexFetch.Proofs.Lanes
import VertexFetch.Proofs.Single

namespace VertexFetch

theorem Binary.apply_comm {f : Binary} (commutes : f.commutes = true)
    (u v : UInt32) : f.apply u v = f.apply v u := by
  cases f with
  | add => exact UInt32.add_comm u v
  | mul => exact UInt32.mul_comm u v
  | and => exact UInt32.and_comm u v
  | mulSingle => exact Single.mul_comm u v
  | eq => simp only [apply, eq_comm]
  | _ => cases commutes

namespace Node

/-- The nodes are equal, but for the order of exchangeable operands. -/
inductive Alike : Node → Node → Prop
  | refl (n : Node) : Alike n n
  | swap {f : Binary} (a b : Ref) : f.commutes = true →
      Alike (.value (.binary f a b)) (.value (.binary f b a))

theorem alike_canonical (n : Node) : n.Alike n.canonical := by
  cases n with
  | store target source => exact .refl _
  | value op =>
      cases op with
      | binary f a b =>
          simp only [canonical]
          split
          next commutes =>
            rcases Nat.le_total a b with below | below
            · rw [Nat.min_eq_left below, Nat.max_eq_right below]
              exact .refl _
            · rw [Nat.min_eq_right below, Nat.max_eq_left below]
              exact .swap a b commutes
          next => exact .refl _
      | _ => exact .refl _

theorem Alike.symm {m n : Node} (alike : m.Alike n) : n.Alike m := by
  cases alike with
  | refl => exact .refl _
  | swap a b commutes => exact .swap b a commutes

theorem Alike.trans {m n o : Node} (first : m.Alike n) (second : n.Alike o) :
    m.Alike o := by
  cases first with
  | refl => exact second
  | swap a b commutes =>
      cases second with
      | refl => exact .swap a b commutes
      | swap => exact .refl _

theorem alike_of_canonical_eq {m n : Node} (same : m.canonical = n.canonical) :
    m.Alike n :=
  m.alike_canonical.trans (same ▸ n.alike_canonical.symm)

end Node

namespace Graph

variable {g : Graph}

theorem valueKept_swap (formed : g.WellFormed) {r s : Ref} {f : Binary}
    {a b : Ref} (commutes : f.commutes = true)
    (found : g.op? r = some (.binary f a b))
    (other : g.op? s = some (.binary f b a)) : ValueKept g g r s := by
  refine ⟨⟨_, other⟩, ?_⟩
  intro call sound
  have left := sound.operand found (a := a) (by simp [Op.operands])
  have right := sound.operand found (a := b) (by simp [Op.operands])
  obtain ⟨x, first⟩ := left.value
  obtain ⟨y, second⟩ := right.value
  have swapped : g.value call s = g.value call r := by
    rw [value_eq formed.ordered found, value_eq formed.ordered other]
    simp only [Op.eval, first, second]
    refine congrArg Except.ok (Lanes.ext_get ?_)
    intro i
    rw [Lanes.get_zipWith, Lanes.get_zipWith, Binary.apply_comm commutes]
  obtain ⟨v, value⟩ := sound.value
  refine ⟨.mk other ?_ (swapped.trans value) ?_, swapped⟩
  · intro c named
    simp only [Op.operands, List.mem_cons, List.not_mem_nil, or_false] at named
    rcases named with rfl | rfl
    · exact right
    · exact left
  · intro c d product
    cases product
    exact sound.numeric found value a b rfl

theorem valueKept_same (formed : g.WellFormed) {r s : Ref} {op : Op Ref}
    (found : g.op? r = some op) (other : g.op? s = some op) :
    ValueKept g g r s := by
  refine ⟨⟨_, other⟩, ?_⟩
  intro call sound
  have same : g.value call s = g.value call r := by
    rw [value_eq formed.ordered found, value_eq formed.ordered other]
  obtain ⟨v, value⟩ := sound.value
  exact ⟨.mk other (fun _ named => sound.operand found named) (same.trans value)
    (sound.numeric found value), same⟩

theorem nodeKept_of_alike (formed : g.WellFormed) {r s : Ref} {m n : Node}
    (found : g.get? r = some n) (other : g.get? s = some m)
    (alike : m.Alike n) : NodeKept g g r s := by
  cases alike with
  | refl =>
      cases m with
      | value op =>
          rw [← op?_eq_some] at found other
          exact .value ⟨op, found⟩ (valueKept_same formed found other)
      | store target source =>
          have value :=
            formed.operand r _ found source (by simp [Node.operands])
          exact .store found other (.refl value)
  | swap a b commutes =>
      rw [← op?_eq_some] at found other
      exact .value ⟨_, found⟩ (valueKept_swap formed commutes found other)

def Stands (g : Graph) (known : Std.HashMap Node Ref) : Prop :=
  ∀ form first, known[form]? = some first →
    ∃ m, g.get? first = some m ∧ m.canonical = form

theorem stands_empty (g : Graph) : g.Stands ∅ := by
  intro form first entry
  simp at entry

theorem sharingRule_lawful : Lawful sharingRule Stands where
  grow g h known _ _ grown holds := by
    intro form first entry
    obtain ⟨m, found, canonical⟩ := holds form first entry
    exact ⟨m, grown _ _ found, canonical⟩
  legal g known r n formed holds found := by
    simp only [sharingRule, found]
    split
    next first entry =>
      obtain ⟨m, other, canonical⟩ := holds _ _ entry
      exact ⟨.reuse
        (nodeKept_of_alike formed found other
          (Node.alike_of_canonical_eq canonical)), holds⟩
    next =>
      refine ⟨.keep, ?_⟩
      intro form first entry
      rw [Std.HashMap.getElem?_insert] at entry
      split at entry
      next same =>
        cases entry
        exact ⟨n, found, beq_iff_eq.mp same⟩
      next => exact holds form first entry

end Graph

theorem Program.kept_share {p : Program} (formed : p.WellFormed) :
    p.Kept p.share :=
  kept_sweepWith Graph.sharingRule_lawful formed p.graph.stands_empty

end VertexFetch
