import VertexFetch.Fetch.Indices
import VertexFetch.Proofs.Draft
import VertexFetch.Proofs.View
import VertexFetch.Proofs.Word

namespace VertexFetch

/-- The index of a lane. Where reads are checked it is zero unless it ends in
bounds. -/
def View.indices (v : View) (width : IndexWidth) (checked : Bool) (i : Fin 8) :
    UInt32 :=
  if checked = true ∧
    ¬ (i.val + 1) * width.bytes ≤ (v.argument .lastIndex).toNat then 0
  else v.index width (i.val * width.bytes)

/-- Where the indices that may be read end. -/
def View.Readable (v : View) (width : IndexWidth) (checked : Bool)
    (reach : Nat) : Prop :=
  if checked then (v.argument .lastIndex).toNat ≤ reach
  else 8 * width.bytes ≤ reach

namespace Fetch

open Build

variable {known : List Ref}

def GivesIndices (g : Graph) (r : Ref) (width : IndexWidth) (checked : Bool) :
    Prop :=
  ∀ (v : View) streams reach, g.WellFormed → v.Readable width checked reach →
    g.Holds (v.Shows streams reach) r (v.indices width checked)

theorem bytes_le (width : IndexWidth) : width.bytes ≤ 4 := by
  cases width <;> decide

theorem indexValid_eq_zero {lane : Nat} (few : lane < 8) (width : IndexWidth)
    (last : UInt32) :
    Binary.leUnsigned.apply (UInt32.ofNat ((lane + 1) * width.bytes)) last = 0 ↔
      ¬ (lane + 1) * width.bytes ≤ last.toNat := by
  have small : (lane + 1) * width.bytes < UInt32.size :=
    calc (lane + 1) * width.bytes ≤ 8 * 4 := Nat.mul_le_mul few (bytes_le width)
      _ < UInt32.size := by decide
  rw [Binary.apply, Word.ofBool_eq_zero, decide_eq_false_iff_not,
    UInt32.le_iff_toNat_le, UInt32.toNat_ofNat_of_lt' small]

private theorem narrow_loop (width : IndexWidth) (last start : Ref) (n : Nat)
    (few : n ≤ 8) :
    Build.Does [start, last] ((List.range n).foldlM (fun vector lane => do
      let offset ← word (UInt32.ofNat (lane * width.bytes))
      let stop ← word (UInt32.ofNat ((lane + 1) * width.bytes))
      let valid ← le stop last
      let index ← value (.index width offset valid)
      value (.insert (UInt8.ofNat lane) vector index)) start) (fun r => [r])
      fun g r =>
        ∀ (v : View) streams reach, g.WellFormed → v.Readable width true reach →
          g.op? last = some (.argument .lastIndex) →
          g.op? start = some (.word 0) →
          g.Holds (v.Shows streams reach) r fun i =>
            if i.val < n then v.indices width true i else 0 := by
  induction n with
  | zero =>
      refine .pure (by simp) ?_
      intro g v streams reach formed _ _ zero
      exact (Graph.Holds.word formed zero).ext (by simp)
  | succ n induction =>
      rw [List.range_succ, List.foldlM_append]
      refine .bind (induction (by omega)) fun vector => ?_
      simp only [List.foldlM_cons, List.foldlM_nil, bind_pure]
      refine .bind (.value (by simp [Op.operands])) fun offset => ?_
      refine .bind (.value (by simp [Op.operands])) fun stop => ?_
      refine .bind (.value (by simp [Op.operands])) fun valid => ?_
      refine .bind (.value (by simp [Op.operands])) fun index => ?_
      refine .weaken (.value fun _ => id) (by simp [Op.operands])
        (fun _ _ => id) ?_
      intro g r inserted indexed tested stopped placed before v streams reach
        formed readable lastNode startNode
      have offsets :=
        Graph.Holds.word (C := v.Shows streams reach) formed placed
      have lasts : g.Holds (v.Shows streams reach) last
          fun _ => v.argument .lastIndex :=
        .shownArgument formed lastNode
      have tests :=
        Graph.Holds.binary formed tested (.word formed stopped) lasts (by simp)
      have few' : n < 8 := by omega
      have small : n * width.bytes < UInt32.size :=
        calc n * width.bytes ≤ 8 * 4 :=
          Nat.mul_le_mul (by omega) (bytes_le width)
          _ < UInt32.size := by decide
      have scalar := Graph.Holds.index formed indexed offsets tests
        (u := v.indices width true ⟨n, few'⟩) ?invalid ?read
      case invalid =>
        intro zero
        exact if_pos ⟨rfl, (indexValid_eq_zero few' width _).mp zero⟩
      case read =>
        intro call shows valid
        have ends := Decidable.not_not.mp fun outside =>
          valid ((indexValid_eq_zero few' width _).mpr outside)
        rw [UInt32.toNat_ofNat_of_lt' small, View.indices,
          if_neg fun out => out.2 ends]
        refine shows.index width _
          (Nat.le_trans ?_ (Nat.le_trans ends readable))
        exact Nat.le_of_eq (Nat.succ_mul _ _).symm
      have lane : (UInt8.ofNat n).toNat = n :=
        UInt8.toNat_ofNat_of_lt' (Nat.lt_trans few' (by decide))
      refine (Graph.Holds.insert formed inserted
        (before v streams reach formed readable lastNode startNode) scalar
          (by omega)).ext ?_
      intro i
      rw [lane]
      by_cases here : i.val = n
      · rw [if_pos here, if_pos (by omega)]
        exact congrArg _ (Fin.ext here.symm)
      · rw [if_neg here]
        by_cases before : i.val < n
        · rw [if_pos before, if_pos (by omega)]
        · rw [if_neg before, if_neg (by omega)]

theorem narrowIndices_does (width : IndexWidth) :
    Build.Does known (narrowIndices width) (fun r => [r]) fun g r =>
      GivesIndices g r width true := by
  unfold narrowIndices
  refine .bind (.value (by simp [Op.operands])) fun last => ?_
  refine .bind (.value (by simp [Op.operands])) fun start => ?_
  refine (narrow_loop width last start 8 (Nat.le_refl 8)).weaken (by simp)
    (fun _ _ => id) ?_
  intro g r loop zero lastNode v streams reach formed readable
  exact (loop v streams reach formed readable lastNode zero).ext
    fun i => if_pos i.isLt

/-- Counting whole indices of four bytes is the same as asking where each
ends. -/
theorem wideMask_eq_zero {last : UInt32} (small : last.toNat ≤ 0x7fffffff)
    (i : Fin 8) :
    Binary.gtSigned.apply (Binary.divSigned.apply last 4)
        (UInt32.ofNat i.val) = 0 ↔
      ¬ (i.val + 1) * 4 ≤ last.toNat := by
  have bound := i.isLt
  have number : (UInt32.ofNat i.val).toInt32.toInt = i.val := by
    have lane : (UInt32.ofNat i.val).toNat = i.val :=
      UInt32.toNat_ofNat_of_lt' (Nat.lt_trans bound (by decide))
    rw [Word.toInt_toInt32_of_lt (by omega), lane]
  have count : (Word.divSigned last 4).toInt32.toInt =
      (last.toNat / 4 : Nat) := by
    have four : (4 : UInt32).toInt32.toInt = 4 := by decide
    rw [Word.divSigned, if_neg (by simp), Int32.toInt32_toUInt32,
      Int32.toInt_div, Word.toInt_toInt32_of_lt (by omega), four,
      Int.tdiv_eq_ediv_of_nonneg (by omega)]
    exact Int.bmod_eq_of_le (by omega) (by omega)
  rw [Binary.apply, Binary.apply, Word.ofBool_eq_zero, Word.ltSigned,
    decide_eq_false_iff_not, Int32.lt_iff_toInt_lt, number, count]
  omega

theorem wideIndices_does :
    Build.Does known wideIndices (fun r => [r])
      fun g r => GivesIndices g r .u32 true := by
  unfold wideIndices
  refine .bind (.value (by simp [Op.operands])) fun last => ?_
  refine .bind (.value (by simp [Op.operands])) fun four => ?_
  refine .bind (.value (by simp [Op.operands])) fun count => ?_
  refine .bind (.value (by simp [Op.operands])) fun lanes => ?_
  refine .bind (.value (by simp [Op.operands])) fun mask => ?_
  refine .weaken (.value fun _ => id) (by simp [Op.operands]) (fun _ _ => id) ?_
  intro g r masked compared numbered divided fourNode lastNode v streams reach
    formed readable
  have lasts : g.Holds (v.Shows streams reach) last
      fun _ => v.argument .lastIndex :=
    .shownArgument formed lastNode
  have counts :=
    Graph.Holds.binary formed divided lasts (.word formed fourNode) (by simp)
  have masks :=
    Graph.Holds.binary formed compared counts (.laneNumbers formed numbered)
      (by simp)
  refine Graph.Holds.indicesMasked formed masked masks ?_ ?_
  · intro i zero
    exact if_pos ⟨rfl, (wideMask_eq_zero v.lastIndex_le i).mp zero⟩
  · intro call shows i set
    have ends := Decidable.not_not.mp fun outside =>
      set ((wideMask_eq_zero v.lastIndex_le i).mpr outside)
    rw [View.indices, if_neg fun out => out.2 ends]
    refine shows.index .u32 _ (Nat.le_trans ?_ (Nat.le_trans ends readable))
    exact Nat.le_of_eq (Nat.succ_mul _ _).symm

theorem indices_does (width : IndexWidth) (checked : Bool) :
    Build.Does known (indices width checked) (fun r => [r]) fun g r =>
      GivesIndices g r width checked := by
  cases checked with
  | true =>
      cases width with
      | u8 => exact narrowIndices_does .u8
      | u16 => exact narrowIndices_does .u16
      | u32 => exact wideIndices_does
  | false =>
      refine .weaken (.value fun _ => id) (by simp [Op.operands])
        (fun _ _ => id) ?_
      intro g r found v streams reach formed readable
      refine Graph.Holds.indices formed found ?_
      intro call shows i
      rw [View.indices, if_neg (by simp)]
      refine shows.index width _ (Nat.le_trans ?_ readable)
      have := i.isLt
      rw [← Nat.succ_mul]
      exact Nat.mul_le_mul_right _ (by omega)

end Fetch
end VertexFetch
