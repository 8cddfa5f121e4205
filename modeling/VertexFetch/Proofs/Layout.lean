import Mathlib.Data.List.ProdSigma
import VertexFetch.Kernel
import VertexFetch.Proofs.Fetch.Indices
import VertexFetch.Proofs.Fetch.Loading

namespace VertexFetch

def Target.all : List Target :=
  .vertexId :: .cutMask :: (List.range 128).map Fetch.place

namespace Layout

/-- The packed components of all attributes, in order. -/
def packed (l : Layout) : List (Attribute × Fin 4) :=
  (l.attributes ×ˢ List.finRange 4).filter fun entry =>
    entry.1.packing.contains entry.2.val

theorem packed_eq_flatMap (l : Layout) :
    l.packed = l.attributes.flatMap fun a => a.packed.map (Prod.mk a) := by
  change (l.attributes.flatMap fun a =>
    (List.finRange 4).map (Prod.mk a)).filter _ = _
  rw [List.filter_flatMap]
  simp only [List.filter_map]
  rfl

/-- The streams that a fetch reads. -/
def Needs (l : Layout) (s : UInt8) : Prop :=
  ∃ a ∈ l.attributes, a.stream.toUInt8 = s ∧
    (l.strategy = .linear ∨ ∃ c, a.packing.contains c.val ∧ a.Reads c)

def attributeOutputs (l : Layout) (v : View) :
    List (Target × (Fin 8 → UInt32)) :=
  let index := v.indices l.width l.checked
  match l.strategy with
  | .linear => l.attributes.zipIdx.flatMap fun entry =>
      v.loadedRow entry.2 entry.1 l.checked index
  | .gather =>
      Fetch.placements 0
        (l.packed.map fun entry => v.component? entry.1 index entry.2)

def outputs (l : Layout) (v : View) : List (Target × (Fin 8 → UInt32)) :=
  let index := v.indices l.width l.checked
  (.vertexId, index) ::
    (l.cut.toList.map fun cut =>
      (.cutMask, fun i => Word.ofBool (index i = cut))) ++
    l.attributeOutputs v

/-- The bytes that are read are there: those that are not tested lie in their
streams. -/
structure Ready (l : Layout) (v : View) (streams : UInt8 → Prop) (reach : Nat) :
    Prop where
  streams : ∀ s, l.Needs s → streams s
  readable : v.Readable l.width l.checked reach
  covers : l.strategy = .linear → ∀ a ∈ l.attributes,
    v.Covers a l.checked (v.indices l.width l.checked)

end Layout

namespace Fetch

open Build

theorem range_sublist_all {n : Nat} (few : n ≤ 128) :
    ((List.range n).map place).Sublist ((List.range 128).map place) :=
  (List.range_sublist.mpr few).map place

theorem targets_placements (n : Nat) (values : List (Option Ref)) :
    ((placements n values).map Prod.fst).Sublist
      ((List.range' n values.length).map place) := by
  induction values generalizing n with
  | nil => exact .slnil
  | cons value? values induction =>
      cases value? with
      | none => exact .cons _ (induction (n + 1))
      | some r => exact .cons_cons _ (induction (n + 1))

theorem loads_does {known : List Ref} (attributes : List Attribute) (n : Nat)
    (indices : Ref) (checked : Bool) (named : indices ∈ known) :
    Emit.Does known
      ((attributes.zipIdx n).forM fun entry => do
        liftM (report (.attribute entry.2 entry.1))
        loadAttribute entry.2 entry.1 indices checked)
      (fun _ => []) fun g _ writes =>
        writes.map Prod.fst =
          (List.range' (4 * n) (4 * attributes.length)).map place ∧
        ∀ (v : View) streams reach index, g.WellFormed →
          (∀ a ∈ attributes, streams a.stream.toUInt8 ∧
            v.Covers a checked index) →
          g.Holds (v.Shows streams reach) indices index →
          Delivers g (v.Shows streams reach) writes
            ((attributes.zipIdx n).flatMap fun entry =>
              v.loadedRow entry.2 entry.1 checked index) := by
  induction attributes generalizing n with
  | nil => exact .pure (by simp) fun _ => ⟨rfl, fun _ _ _ _ _ _ _ => .nil⟩
  | cons a attributes induction =>
      refine .bind (.afterReport (loadAttribute_does n a indices checked named))
        fun _ => ?_
      refine (induction (n + 1)).weaken (by simp) (fun _ _ => id) ?_
      rintro g _ writes ⟨targets, rest⟩ before ⟨targets', here⟩
      refine ⟨?_, ?_⟩
      · have next : 4 * (n + 1) = 4 * n + 4 := by omega
        have length : 4 * (a :: attributes).length =
            4 + 4 * attributes.length := by
          rw [List.length_cons]
          omega
        rw [List.map_append, targets, targets', length, ← List.map_append, next,
          List.range'_append_1]
      · intro v streams reach index formed ready indexed
        obtain ⟨seen, covers⟩ := ready a List.mem_cons_self
        exact List.rel_append
          (here v streams reach index formed seen indexed covers)
            (rest v streams reach index formed
              (fun a member => ready a (List.mem_cons_of_mem _ member)) indexed)

theorem gathers_does {known : List Ref} (attributes : List Attribute) (n : Nat)
    (o : OpenRow) (indices : Ref) (named : indices ∈ known) :
    Emit.Does (o.refs ++ known)
      ((attributes.zipIdx n).foldlM (fun row entry => do
        liftM (report (.attribute entry.2 entry.1))
        gatherAttribute row entry.1 indices) o)
      OpenRow.refs fun g next writes =>
        ∃ values, o.Advances values next writes ∧
          ∀ (v : View) streams reach index, g.WellFormed →
            (∀ a ∈ attributes, ∀ c ∈ a.packed, a.Reads c →
              streams a.stream.toUInt8) →
            g.Holds (v.Shows streams reach) indices index →
            (attributes.flatMap fun a => a.packed.map (Prod.mk a)).Forall₂
              (fun entry value? => Fills g entry.1 v (v.Shows streams reach)
                index entry.2 value?) values := by
  induction attributes generalizing n o with
  | nil =>
      refine .pure (by simp +contextual) fun _ => ?_
      exact ⟨[], .refl o, fun _ _ _ _ _ _ _ => .nil⟩
  | cons a attributes induction =>
      refine .bind (.afterReport (gatherAttribute_does o a indices named))
        fun row => ?_
      refine (induction (n + 1) row).weaken (by simp +contextual [or_imp])
        (fun _ _ => id) ?_
      rintro g last writes ⟨others, advances', rest⟩ before
        ⟨values, gathers, advances⟩
      refine ⟨values ++ others, advances.trans advances', ?_⟩
      intro v streams reach index formed seen indexed
      refine List.rel_append ?_ (rest v streams reach index formed
        (fun a member => seen a (List.mem_cons_of_mem _ member)) indexed)
      exact List.forall₂_map_left_iff.mpr
        (gathers v streams reach index formed
          (seen a List.mem_cons_self) indexed)

end Fetch

namespace Layout

open Build

theorem emitAttributes_does {known : List Ref} (l : Layout) (indices : Ref)
    (named : indices ∈ known) :
    Emit.Does known (l.emitAttributes indices) (fun _ => []) fun g _ writes =>
      (writes.map Prod.fst).Sublist ((List.range 128).map Fetch.place) ∧
      ∀ v streams reach, g.WellFormed → l.Ready v streams reach →
        g.Holds (v.Shows streams reach) indices (v.indices l.width l.checked) →
        Fetch.Delivers g (v.Shows streams reach) writes
          (l.attributeOutputs v) := by
  have few : 4 * l.attributes.length ≤ 128 := Nat.mul_le_mul_left 4 l.length_le
  unfold emitAttributes
  cases strategy : l.strategy with
  | linear =>
      refine (Fetch.loads_does l.attributes 0 indices l.checked named).weaken
        (fun _ => id) (fun _ _ => id) ?_
      rintro g _ writes ⟨targets, delivers⟩
      refine ⟨?_, ?_⟩
      · rw [targets, Nat.mul_zero, ← List.range_eq_range']
        exact Fetch.range_sublist_all few
      · intro v streams reach formed ready indexed
        simp only [attributeOutputs, strategy]
        refine delivers v streams reach _ formed ?_ indexed
        intro a member
        exact ⟨ready.streams _ ⟨a, member, rfl, .inl strategy⟩,
          ready.covers strategy a member⟩
  | gather =>
      refine .bind ((Fetch.gathers_does l.attributes 0 {} indices named).weaken
        (by simp [Fetch.OpenRow.refs]) (fun _ _ => id) fun _ _ _ => id)
        fun last => ?_
      refine (Fetch.OpenRow.close_does last (by simp +contextual)).weaken
        (fun _ => id) (fun _ _ => id) ?_
      rintro g _ writes closes before ⟨values, advances, gathers⟩
      obtain ⟨rfl, count⟩ := closes (advances.fits ⟨by decide, by decide⟩)
      have stored : before ++ last.pending = Fetch.placements 0 values :=
        advances.writes
      have length : values.length ≤ 128 := by
        rw [advances.count] at count
        exact Nat.le_trans (Nat.le_add_left _ _) count
      rw [stored]
      refine ⟨?_, ?_⟩
      · have targets := Fetch.targets_placements 0 values
        rw [← List.range_eq_range'] at targets
        exact targets.trans (Fetch.range_sublist_all length)
      · intro v streams reach formed ready indexed
        simp only [attributeOutputs, strategy, packed_eq_flatMap]
        refine Fetch.delivers_placements (List.forall₂_map_left_iff.mpr ?_) 0
        refine gathers v streams reach _ formed ?_ indexed
        intro a member c packed reads
        exact ready.streams _ ⟨a, member, rfl,
          .inr ⟨c, Attribute.mem_packed.mp packed, reads⟩⟩

theorem emit_does (l : Layout) :
    Emit.Does [] l.emit (fun _ => []) fun g _ writes =>
      (writes.map Prod.fst).Sublist Target.all ∧
      ∀ v streams reach, g.WellFormed →
        l.Ready v streams reach →
        Fetch.Delivers g (v.Shows streams reach) writes (l.outputs v) := by
  unfold emit
  refine .afterReport ?_
  refine .bind (.lift (Fetch.indices_does l.width l.checked)) fun indices => ?_
  refine .bind (.store (by simp)) fun _ => ?_
  cases cut : l.cut with
  | none =>
      refine (emitAttributes_does l indices (by simp)).weaken (fun _ => id)
        (fun _ _ => id) ?_
      rintro g _ writes ⟨targets, delivers⟩ _ rfl _ ⟨rfl, gives⟩
      refine ⟨.cons_cons _ (.cons _ targets), ?_⟩
      intro v streams reach formed ready
      have indexed := gives v streams reach formed ready.readable
      rw [outputs, cut]
      exact .cons ⟨rfl, indexed⟩ (delivers v streams reach formed ready indexed)
  | some value =>
      refine .bind (.lift (.value (by simp [Op.operands]))) fun literal => ?_
      refine .bind (.lift (.value (by simp [Op.operands]))) fun mask => ?_
      refine .bind (.store (by simp)) fun _ => ?_
      refine (emitAttributes_does l indices (by simp)).weaken (fun _ => id)
        (fun _ _ => id) ?_
      rintro g _ writes ⟨targets, delivers⟩ _ rfl _ ⟨rfl, compared⟩ _
        ⟨rfl, literalNode⟩ _ rfl _ ⟨rfl, gives⟩
      refine ⟨.cons_cons _ (.cons_cons _ targets), ?_⟩
      intro v streams reach formed ready
      have indexed := gives v streams reach formed ready.readable
      have masks :=
        Graph.Holds.binary formed compared indexed (.word formed literalNode)
          (by simp)
      rw [outputs, cut]
      exact .cons ⟨rfl, indexed⟩
        (.cons ⟨rfl, masks⟩ (delivers v streams reach formed ready indexed))

end Layout
end VertexFetch
