import VertexFetch.Proofs.Pass.Selects

/-! Which values are lane masks. A select goes bit by bit, so between two masks
it gives a mask only if they are the same or its condition is one too. The
analysis does not look at conditions: its answer is right in every lane but
those in which a select it passes through blends two masks. -/

namespace VertexFetch

namespace Word

def IsMask (w : UInt32) : Prop := w = 0 ∨ w = 0xffffffff

instance (w : UInt32) : Decidable (IsMask w) := instDecidableOr

theorem isMask_ofBool (b : Bool) : IsMask (ofBool b) := by
  cases b with
  | false => exact .inl rfl
  | true => exact .inr rfl

theorem IsMask.and {a b : UInt32} (first : IsMask a) (second : IsMask b) :
    IsMask (a &&& b) := by
  rcases first with rfl | rfl
  · rw [UInt32.zero_and]
    exact .inl rfl
  · rw [ones_and]
    exact second

theorem select_zero_ones (c : UInt32) :
    select c 0 0xffffffff = 0xffffffff ^^^ c := by
  simp [select, ones_and]

theorem isMask_ones_xor {w : UInt32} :
    IsMask (0xffffffff ^^^ w) ↔ IsMask w := by
  have none : 0xffffffff ^^^ w = 0 ↔ w = 0xffffffff := by
    rw [UInt32.xor_eq_zero_iff, eq_comm]
  have all : 0xffffffff ^^^ w = 0xffffffff ↔ w = 0 := by
    have unchanged := UInt32.xor_right_inj (a := w) (b := 0) 0xffffffff
    rwa [UInt32.xor_zero] at unchanged
  rw [IsMask, none, all]
  exact or_comm

theorem isMask_select {c t f : UInt32} (first : IsMask t) (second : IsMask f) :
    IsMask (select c t f) ↔ IsMask c ∨ t = f := by
  by_cases same : t = f
  · subst same
    rw [select_same]
    exact iff_of_true first (.inr rfl)
  · rw [or_iff_left same]
    rcases first with rfl | rfl <;> rcases second with rfl | rfl
    · exact absurd rfl same
    · rw [select_zero_ones, isMask_ones_xor]
    · rw [select_ones_zero]
    · exact absurd rfl same

end Word

theorem Binary.isMask_apply {f : Binary} (test : f.isTest = true)
    (a b : UInt32) : Word.IsMask (f.apply a b) := by
  cases f with
  | eq => exact Word.isMask_ofBool _
  | ltSigned => exact Word.isMask_ofBool _
  | gtSigned => exact Word.isMask_ofBool _
  | ltUnsigned => exact Word.isMask_ofBool _
  | leUnsigned => exact Word.isMask_ofBool _
  | _ => cases test

namespace Graph

/-- Nodes that count as masks: tests, the words that are masks, and what is made
from nodes that count as masks. The condition of a select does not matter. -/
inductive CountsMask (g : Graph) : Ref → Prop
  | test {r a b : Ref} {f : Binary} : g.op? r = some (.binary f a b) →
        f.isTest = true →
      CountsMask g r
  | both {r a b : Ref} : g.op? r = some (.binary .and a b) →
        (∀ x ∈ [a, b], CountsMask g x) →
      CountsMask g r
  | arms {r c t f : Ref} : g.op? r = some (.select c t f) →
        (∀ x ∈ [t, f], CountsMask g x) →
      CountsMask g r
  | word {r : Ref} {w : UInt32} : g.op? r = some (.word w) → Word.IsMask w →
        CountsMask g r

/-- Whether `r` counts as a mask is made out from whether `s` does. -/
inductive Consults (g : Graph) : Ref → Ref → Prop
  | self (r : Ref) : Consults g r r
  | both {r a b x s : Ref} : g.op? r = some (.binary .and a b) → x ∈ [a, b] →
        Consults g x s →
      Consults g r s
  | arms {r c t f x s : Ref} : g.op? r = some (.select c t f) → x ∈ [t, f] →
        Consults g x s →
      Consults g r s

/-- In lane `i` the node chooses between two different masks by a word that is
none, so that it has bits of both. -/
def Blends (g : Graph) (call : Call) (i : Fin 8) (r : Ref) : Prop :=
  ∃ c t f x y z, g.op? r = some (.select c t f) ∧
    g.value call c = .ok x ∧ g.value call t = .ok y ∧ g.value call f = .ok z ∧
    ¬Word.IsMask (x.get i) ∧ Word.IsMask (y.get i) ∧ Word.IsMask (z.get i) ∧
    y.get i ≠ z.get i

variable {g : Graph} {call : Call} {r s : Ref} {v : Lanes}

theorem countsMask_of_isMask (known : g.isMask r = true) : g.CountsMask r := by
  induction r using Nat.strongRecOn with
  | ind r induction =>
      have below : ∀ {a}, (if a < r then g.isMask a else false) = true →
          g.CountsMask a := by
        intro a known
        split at known
        next lt => exact induction a lt known
        next => cases known
      rw [isMask] at known
      split at known
      next f a b found =>
        simp only [Bool.or_eq_true, Bool.and_eq_true, decide_eq_true_eq]
          at known
        rcases known with test | ⟨⟨rfl, first⟩, second⟩
        · exact .test found test
        · exact .both found (by simp [below first, below second])
      next c t f found =>
        simp only [Bool.and_eq_true] at known
        exact .arms found (by simp [below known.1, below known.2])
      next w found =>
        simp only [Bool.or_eq_true, decide_eq_true_eq] at known
        exact .word found known
      next => cases known

theorem CountsMask.isMask (counts : g.CountsMask r) (ordered : g.Ordered) :
    g.isMask r = true := by
  have below : ∀ {r op}, g.op? r = some op → ∀ a ∈ op.operands, a < r :=
    fun found => ordered _ _ (op?_eq_some.mp found)
  induction counts with
  | test found test =>
      rw [Graph.isMask, found]
      simp [test]
  | both found _ induction =>
      have lt := below found
      simp only [Op.operands, List.mem_cons, List.not_mem_nil, or_false,
        forall_eq_or_imp, forall_eq] at lt induction
      rw [Graph.isMask, found]
      simp [lt, induction]
  | arms found _ induction =>
      have lt := below found
      simp only [Op.operands, List.mem_cons, List.not_mem_nil, or_false,
        forall_eq_or_imp, forall_eq] at lt induction
      rw [Graph.isMask, found]
      simp [lt, induction]
  | word found mask =>
      rw [Graph.isMask, found]
      simpa [Word.IsMask] using mask

theorem value_binary (ordered : g.Ordered) {f : Binary} {a b : Ref}
    (found : g.op? r = some (.binary f a b)) (value : g.value call r = .ok v) :
    ∃ x y, g.value call a = .ok x ∧ g.value call b = .ok y ∧
      ∀ i, v.get i = f.apply (x.get i) (y.get i) := by
  rw [value_eq ordered found] at value
  obtain ⟨x, first, value⟩ := bind_eq_ok.mp value
  obtain ⟨y, second, made⟩ := bind_eq_ok.mp value
  cases made
  exact ⟨x, y, first, second, fun i => Lanes.get_zipWith _ _ _ i⟩

theorem value_select (ordered : g.Ordered) {c t f : Ref}
    (found : g.op? r = some (.select c t f)) (value : g.value call r = .ok v) :
    ∃ x y z, g.value call c = .ok x ∧ g.value call t = .ok y ∧
      g.value call f = .ok z ∧
      ∀ i, v.get i = Word.select (x.get i) (y.get i) (z.get i) := by
  rw [value_eq ordered found] at value
  obtain ⟨x, condition, value⟩ := bind_eq_ok.mp value
  obtain ⟨y, first, value⟩ := bind_eq_ok.mp value
  obtain ⟨z, second, made⟩ := bind_eq_ok.mp value
  cases made
  exact ⟨x, y, z, condition, first, second, fun i => Lanes.get_ofFn _ i⟩

theorem CountsMask.isMask_lane (counts : g.CountsMask r) (ordered : g.Ordered)
    (value : g.value call r = .ok v) (i : Fin 8)
    (steady : ∀ s, g.Consults r s → ¬g.Blends call i s) :
    Word.IsMask (v.get i) := by
  induction counts generalizing v with
  | test found test =>
      obtain ⟨x, y, _, _, lanes⟩ := value_binary ordered found value
      rw [lanes]
      exact Binary.isMask_apply test _ _
  | both found _ induction =>
      obtain ⟨x, y, left, right, lanes⟩ := value_binary ordered found value
      have maskX := induction _ (by simp) left fun s consults =>
        steady s (.both found (by simp) consults)
      have maskY := induction _ (by simp) right fun s consults =>
        steady s (.both found (by simp) consults)
      rw [lanes]
      exact maskX.and maskY
  | @arms r c t f found _ induction =>
      obtain ⟨x, y, z, condition, left, right, lanes⟩ :=
        value_select ordered found value
      have maskY := induction t (by simp) left fun s consults =>
        steady s (.arms found (by simp) consults)
      have maskZ := induction f (by simp) right fun s consults =>
        steady s (.arms found (by simp) consults)
      rw [lanes, Word.isMask_select maskY maskZ]
      by_cases mask : Word.IsMask (x.get i)
      · exact .inl mask
      · refine .inr (Decidable.byContradiction fun different => ?_)
        exact steady r (.self r)
          ⟨c, t, f, x, y, z, found, condition, left, right, mask, maskY, maskZ,
            different⟩
  | word found mask =>
      rw [value_eq ordered found] at value
      cases value
      rw [Lanes.get_splat]
      exact mask

theorem Blends.not_isMask {i : Fin 8} (blends : g.Blends call i r)
    (ordered : g.Ordered) (value : g.value call r = .ok v) :
    ¬Word.IsMask (v.get i) := by
  obtain ⟨c, t, f, x, y, z, found, condition, left, right, mask, maskY, maskZ,
    different⟩ := blends
  rw [value_eq ordered found, eval_select condition left right] at value
  cases value
  rw [Lanes.get_ofFn, Word.isMask_select maskY maskZ]
  exact not_or.mpr ⟨mask, different⟩

theorem CountsMask.of_consults (counts : g.CountsMask r)
    (consults : g.Consults r s) : g.CountsMask s := by
  induction consults with
  | self => exact counts
  | both found named _ induction =>
      apply induction
      cases counts with
      | test found' test =>
          cases found.symm.trans found'
          cases test
      | both found' all =>
          cases found.symm.trans found'
          exact all _ named
      | arms found' => cases found.symm.trans found'
      | word found' => cases found.symm.trans found'
  | arms found named _ induction =>
      apply induction
      cases counts with
      | test found' => cases found.symm.trans found'
      | both found' => cases found.symm.trans found'
      | arms found' all =>
          cases found.symm.trans found'
          exact all _ named
      | word found' => cases found.symm.trans found'

theorem Consults.value (consults : g.Consults r s) (ordered : g.Ordered)
    (value : g.value call r = .ok v) : ∃ w, g.value call s = .ok w := by
  induction consults generalizing v with
  | self => exact ⟨v, value⟩
  | both found named _ induction =>
      obtain ⟨x, y, left, right, _⟩ := value_binary ordered found value
      simp only [List.mem_cons, List.not_mem_nil, or_false] at named
      rcases named with rfl | rfl
      · exact induction left
      · exact induction right
  | arms found named _ induction =>
      obtain ⟨x, y, z, _, left, right, _⟩ := value_select ordered found value
      simp only [List.mem_cons, List.not_mem_nil, or_false] at named
      rcases named with rfl | rfl
      · exact induction left
      · exact induction right

/-- A value that is said to be a mask is one in every lane in which no select
that was passed through blends two masks. This cannot be left out: every node on
whose answer this one rests is said to be a mask as well and has a value, which
is none in the lanes in which the node blends. -/
theorem isMask_unless_blends (ordered : g.Ordered) (known : g.isMask r = true)
    (value : g.value call r = .ok v) (i : Fin 8) :
    ((∀ s, g.Consults r s → ¬g.Blends call i s) →
      v.get i = 0 ∨ v.get i = 0xffffffff) ∧
      ∀ s, g.Consults r s → g.isMask s = true ∧ ∃ w, g.value call s = .ok w ∧
        (g.Blends call i s → ¬(w.get i = 0 ∨ w.get i = 0xffffffff)) := by
  have counts := countsMask_of_isMask known
  refine ⟨counts.isMask_lane ordered value i, ?_⟩
  intro s consults
  obtain ⟨w, value'⟩ := consults.value ordered value
  exact ⟨(counts.of_consults consults).isMask ordered, w, value',
    fun blends => blends.not_isMask ordered value'⟩

/-- The lanes below 3, that mask spelled out, and by it a choice between it and
lane 3. -/
def guarded : Graph :=
  ⟨#[.value .laneNumbers, .value (.word 3), .value (.binary .ltUnsigned 0 1),
    .value (.word 0xffffffff), .value (.word 0), .value (.select 2 3 4),
    .value (.binary .eq 0 1), .value (.select 5 2 6)]⟩

theorem guarded_condition {s c t f : Nat}
    (found : guarded.op? s = some (.select c t f)) : c = 2 ∨ c = 5 := by
  have inside : s < 8 := get?_lt (op?_eq_some.mp found)
  obtain rfl | rfl | rfl | rfl | rfl | rfl | rfl | rfl : s = 5 ∨ s = 7 ∨ s = 0 ∨
    s = 1 ∨ s = 2 ∨
      s = 3 ∨ s = 4 ∨ s = 6 := by omega
  · cases found
    exact .inl rfl
  · cases found
    exact .inr rfl
  all_goals cases found

theorem guarded_steady (i : Fin 8) (s : Ref) : ¬guarded.Blends {} i s := by
  rintro ⟨c, t, f, x, y, z, found, condition, _, _, varied, _⟩
  let below : Lanes := #v[0xffffffff, 0xffffffff, 0xffffffff, 0, 0, 0, 0, 0]
  have masks : ∀ i, Word.IsMask (below.get i) := by decide
  have lanes : x = below := by
    rcases guarded_condition found with rfl | rfl
    · have tested : guarded.value {} 2 = .ok below := by with_unfolding_all rfl
      exact Except.ok.inj (condition.symm.trans tested)
    · have spelled : guarded.value {} 5 = .ok below := by with_unfolding_all rfl
      exact Except.ok.inj (condition.symm.trans spelled)
  rw [lanes] at varied
  exact varied (masks i)

theorem isMask_unless_blends_guarded :
    guarded.Ordered ∧ guarded.isMask 7 = true ∧
      guarded.value {} 7 =
        .ok #v[0xffffffff, 0xffffffff, 0xffffffff, 0xffffffff, 0, 0, 0, 0] ∧
      (∀ i s, guarded.Consults 7 s → ¬guarded.Blends {} i s) ∧
      ∀ v, guarded.value {} 7 = .ok v →
        ∀ i, v.get i = 0 ∨ v.get i = 0xffffffff := by
  have ordered : guarded.Ordered := by decide
  have known : guarded.isMask 7 = true := by decide +kernel
  refine ⟨ordered,
    known, by with_unfolding_all rfl, fun i s _ => guarded_steady i s, ?_⟩
  intro v value i
  exact (isMask_unless_blends ordered known value i).1
    fun s _ => guarded_steady i s

def blended : Graph :=
  ⟨#[.value (.argument .startVertex), .value (.word 0xffffffff),
    .value (.word 0), .value (.select 0 1 2), .value (.select 3 1 2),
    .store .vertexId 4]⟩

/-- The choice is said to be a mask, and taken for one where a select spells it
out, but has the word that it was made by in every lane. -/
theorem isMask_misjudges_blend :
    blended.WellFormed ∧ blended.isMask 3 = true ∧
      blended.selectRule 4 = .reuse 3 ∧
      blended.value { startVertex := 5 } 3 = .ok (.splat 5) ∧
      ¬∀ v, blended.value { startVertex := 5 } 3 = .ok v →
        ∀ i, v.get i = 0 ∨ v.get i = 0xffffffff := by
  have five : blended.value { startVertex := 5 } 3 = .ok (.splat 5) := by
    with_unfolding_all rfl
  refine ⟨by decide, by decide +kernel, by with_unfolding_all rfl, five, ?_⟩
  intro masks
  have first := masks _ five 0
  rw [Lanes.get_splat] at first
  revert first
  decide

end Graph
end VertexFetch
