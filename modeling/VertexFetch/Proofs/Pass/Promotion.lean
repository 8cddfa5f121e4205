import VertexFetch.Pass.Promotion
import VertexFetch.Proofs.Graph.Sweep
import VertexFetch.Proofs.Lanes

namespace VertexFetch

namespace Lanes

def Uniform (v : Lanes) : Prop := v = splat v.first

theorem uniform_splat (w : UInt32) : (splat w).Uniform := by
  rw [Uniform, first, get_splat]

theorem Uniform.get {v : Lanes} (uniform : v.Uniform) (i : Fin 8) :
    v.get i = v.first :=
  (congrArg (Vector.get · i) uniform).trans (get_splat v.first i)

theorem uniform_of_get {v : Lanes} {w : UInt32} (same : ∀ i, v.get i = w) :
    v.Uniform := by
  apply ext_get
  intro i
  rw [get_splat, first, same, same]

end Lanes

namespace Op

variable {ρ : Type} {call : Call} {read : ρ → Except Fault Lanes} {op : Op ρ}
  {v : Lanes}

theorem uniform_of_always (always : op.uniformity = .always)
    (evaluated : op.eval call read = .ok v) : v.Uniform := by
  cases op with
  | argument a => cases evaluated; exact Lanes.uniform_splat _
  | single bits => cases evaluated; exact Lanes.uniform_splat _
  | word w => cases evaluated; exact Lanes.uniform_splat _
  | stream s field =>
      obtain ⟨stream, _, made⟩ := bind_eq_ok.mp evaluated
      cases made
      exact Lanes.uniform_splat _
  | extract lane a =>
      obtain ⟨x, _, evaluated⟩ := bind_eq_ok.mp evaluated
      obtain ⟨w, _, made⟩ := bind_eq_ok.mp evaluated
      cases made
      exact Lanes.uniform_splat _
  | index w offset valid =>
      obtain ⟨x, _, evaluated⟩ := bind_eq_ok.mp evaluated
      split at evaluated
      next =>
        cases evaluated
        exact Lanes.uniform_splat _
      next =>
        obtain ⟨place, _, evaluated⟩ := bind_eq_ok.mp evaluated
        obtain ⟨w, _, made⟩ := bind_eq_ok.mp evaluated
        cases made
        exact Lanes.uniform_splat _
  | _ => cases always

theorem uniform_of_operands (spread : op.uniformity = .ifOperands)
    (operands : ∀ a ∈ op.operands, ∀ x, read a = .ok x → x.Uniform)
    (evaluated : op.eval call read = .ok v) : v.Uniform := by
  cases op with
  | binary f a b =>
      obtain ⟨x, first, evaluated⟩ := bind_eq_ok.mp evaluated
      obtain ⟨y, second, made⟩ := bind_eq_ok.mp evaluated
      cases made
      have left := operands a (by simp [Op.operands]) x first
      have right := operands b (by simp [Op.operands]) y second
      apply Lanes.uniform_of_get
      intro i
      rw [Lanes.get_zipWith, left.get, right.get]
  | round f a =>
      obtain ⟨x, first, made⟩ := bind_eq_ok.mp evaluated
      cases made
      have left := operands a (by simp [Op.operands]) x first
      apply Lanes.uniform_of_get
      intro i
      rw [Lanes.get_map, left.get]
  | select c t f =>
      obtain ⟨x, first, evaluated⟩ := bind_eq_ok.mp evaluated
      obtain ⟨y, second, evaluated⟩ := bind_eq_ok.mp evaluated
      obtain ⟨z, third, made⟩ := bind_eq_ok.mp evaluated
      cases made
      have condition := operands c (by simp [Op.operands]) x first
      have left := operands t (by simp [Op.operands]) y second
      have right := operands f (by simp [Op.operands]) z third
      apply Lanes.uniform_of_get
      intro i
      rw [Lanes.get_ofFn, condition.get, left.get, right.get]
  | _ => cases spread

end Op

namespace Graph

variable {g h : Graph}

structure Uniform (g : Graph) (r : Ref) : Prop where
  isValue : g.IsValue r
  lanes : ∀ call v, g.value call r = .ok v → v.Uniform

theorem Uniform.mono (formed : g.WellFormed) (ordered : h.Ordered)
    (grown : g ≤ h) {r : Ref} (uniform : g.Uniform r) : h.Uniform r := by
  refine ⟨uniform.isValue.mono grown, ?_⟩
  intro call v value
  rw [value_mono formed ordered grown call uniform.isValue] at value
  exact uniform.lanes call v value

theorem uniform_of_always (ordered : g.Ordered) {r : Ref} {op : Op Ref}
    (found : g.op? r = some op) (always : op.uniformity = .always) :
    g.Uniform r := by
  refine ⟨⟨op, found⟩, ?_⟩
  intro call v value
  rw [value_eq ordered found] at value
  exact Op.uniform_of_always always value

theorem uniform_of_operands (ordered : g.Ordered) {r : Ref} {op : Op Ref}
    (found : g.op? r = some op) (spread : op.uniformity = .ifOperands)
    (operands : ∀ a ∈ op.operands, g.Uniform a) : g.Uniform r := by
  refine ⟨⟨op, found⟩, ?_⟩
  intro call v value
  rw [value_eq ordered found] at value
  exact Op.uniform_of_operands spread
    (fun a named => (operands a named).lanes call) value

/-- The positive answers in a memo are right. -/
def Trusts (g : Graph) (memo : UniformMemo) : Prop :=
  ∀ r, memo[r]? = some true → g.Uniform r

def Answers (g : Graph) (P : Prop) (answer : Bool × UniformMemo) : Prop :=
  (answer.1 = true → P) ∧ g.Trusts answer.2

theorem Trusts.insert {memo : UniformMemo} (trusts : g.Trusts memo) {r : Ref}
    {answer : Bool} (right : answer = true → g.Uniform r) :
    g.Trusts (memo.insert r answer) := by
  intro x entry
  rw [Std.HashMap.getElem?_insert] at entry
  split at entry
  next same =>
    rw [← beq_iff_eq.mp same]
    exact right (Option.some.inj entry)
  next => exact trusts x entry

private theorem allUniform_answers {bound : Ref}
    (below : ∀ a < bound, ∀ memo, g.Trusts memo →
      g.Answers (g.Uniform a) (g.isUniform a memo))
    (rs : List Ref) (memo : UniformMemo) (trusts : g.Trusts memo) :
    g.Answers (∀ a ∈ rs, g.Uniform a) (g.allUniform bound rs memo) := by
  induction rs generalizing memo with
  | nil =>
      rw [allUniform]
      exact ⟨by simp, trusts⟩
  | cons r rest induction =>
      rw [allUniform]
      split
      next inside =>
        obtain ⟨first, trusts⟩ := below r inside memo trusts
        obtain ⟨others, trusts⟩ := induction _ trusts
        refine ⟨?_, trusts⟩
        intro both
        simp only [Bool.and_eq_true] at both
        simp only [List.mem_cons, forall_eq_or_imp]
        exact ⟨first both.1, others both.2⟩
      next => exact ⟨by simp, trusts⟩

theorem isUniform_answers (ordered : g.Ordered) (r : Ref) (memo : UniformMemo)
    (trusts : g.Trusts memo) :
    g.Answers (g.Uniform r) (g.isUniform r memo) := by
  induction r using Nat.strongRecOn generalizing memo with
  | ind r induction =>
      rw [isUniform]
      cases entry : memo[r]? with
      | some known =>
          refine ⟨?_, trusts⟩
          intro positive
          exact trusts r (entry.trans (congrArg some positive))
      | none =>
          have answers : ∀ answer : Bool × UniformMemo,
              g.Answers (g.Uniform r) answer →
              g.Answers (g.Uniform r) (answer.1, answer.2.insert r answer.1) :=
            fun _ answers => ⟨answers.1, answers.2.insert answers.1⟩
          apply answers
          cases found : g.op? r with
          | none => exact ⟨by simp, trusts⟩
          | some op =>
              dsimp only
              cases kind : op.uniformity with
              | always =>
                  exact ⟨fun _ => uniform_of_always ordered found kind, trusts⟩
              | never => exact ⟨by simp, trusts⟩
              | ifOperands =>
                  obtain ⟨right, trusts⟩ :=
                    allUniform_answers induction op.operands memo trusts
                  refine ⟨?_, trusts⟩
                  intro positive
                  exact uniform_of_operands ordered found kind (right positive)

/-- Node `r` has a lane of `source` in all lanes. -/
structure Supplies (g : Graph) (lane : UInt8) (r source : Ref) : Prop where
  isValue : g.IsValue source
  lanes : ∀ call, g.Sound call r → g.Sound call source ∧
    ∃ v w, g.value call source = .ok v ∧
    v.lane lane = .ok w ∧ g.value call r = .ok (.splat w)

variable {lane : UInt8} {r source : Ref}

theorem supplies_extracted (formed : g.WellFormed)
    (found : g.op? r = some (.extract lane source)) :
    g.Supplies lane r source := by
  have named : source ∈ (Op.extract lane source).operands := by
    simp [Op.operands]
  refine ⟨formed.operand r _ (op?_eq_some.mp found) source named, ?_⟩
  intro call sound
  obtain ⟨u, value⟩ := sound.value
  have evaluated := value
  rw [value_eq formed.ordered found] at evaluated
  obtain ⟨v, read, evaluated⟩ := bind_eq_ok.mp evaluated
  obtain ⟨w, taken, made⟩ := bind_eq_ok.mp evaluated
  cases made
  exact ⟨sound.operand found named, v, w, read, taken, value⟩

theorem Supplies.passBy (supplies : g.Supplies lane r source)
    (formed : g.WellFormed) {l : UInt8} {vector scalar : Ref}
    (found : g.op? source = some (.insert l vector scalar))
    (other : l ≠ lane) : g.Supplies lane r vector := by
  have named : vector ∈ (Op.insert l vector scalar).operands := by
    simp [Op.operands]
  refine ⟨formed.operand source _ (op?_eq_some.mp found) vector named, ?_⟩
  intro call sound
  obtain ⟨sourceSound, v, w, value, taken, result⟩ := supplies.lanes call sound
  rw [value_eq formed.ordered found] at value
  obtain ⟨x, read, value⟩ := bind_eq_ok.mp value
  obtain ⟨y, _, set⟩ := bind_eq_ok.mp value
  obtain ⟨_, lanes⟩ := Lanes.setLane_eq_ok set
  obtain ⟨inside, taken⟩ := Lanes.lane_eq_ok.mp taken
  refine ⟨sourceSound.operand found named, x, w, read,
    Lanes.lane_eq_ok.mpr ⟨inside, ?_⟩, result⟩
  rw [lanes, if_neg] at taken
  · exact taken
  · intro same
    exact other (UInt8.toNat_inj.mp (Fin.mk.inj same).symm)

theorem Supplies.legal_extract (supplies : g.Supplies lane r source)
    (value : g.IsValue r) : g.Legal r (.create (.extract lane source)) := by
  refine .create value ?_ (by simp) ?_
  · simpa [Op.operands] using supplies.isValue
  · intro call sound
    obtain ⟨sourceSound, v, w, read, taken, result⟩ := supplies.lanes call sound
    refine ⟨by simpa [Op.operands] using sourceSound, ?_⟩
    rw [result]
    exact bind_eq_ok.mpr ⟨v, read, bind_eq_ok.mpr ⟨w, taken, rfl⟩⟩

theorem Supplies.legal_reuse (supplies : g.Supplies lane r source)
    (value : g.IsValue r) (uniform : g.Uniform source) :
    g.Legal r (.reuse source) := by
  refine .reuse (.value value ⟨supplies.isValue, ?_⟩)
  intro call sound
  obtain ⟨sourceSound, v, w, read, taken, result⟩ := supplies.lanes call sound
  obtain ⟨inside, taken⟩ := Lanes.lane_eq_ok.mp taken
  have lanes := uniform.lanes call v read
  refine ⟨sourceSound, ?_⟩
  rw [read, result, ← taken, lanes.get]
  exact congrArg Except.ok lanes

theorem Supplies.legal_number (supplies : g.Supplies lane r source)
    (formed : g.WellFormed) {op : Op Ref} (value : g.op? r = some op)
    (found : g.op? source = some .laneNumbers) :
    g.Legal r (.create (.word lane.toUInt32)) := by
  refine .literal formed value rfl ?_
  intro call sound
  obtain ⟨_, v, w, read, taken, result⟩ := supplies.lanes call sound
  rw [value_eq formed.ordered found] at read
  cases read
  obtain ⟨inside, taken⟩ := Lanes.lane_eq_ok.mp taken
  rw [← value_eq formed.ordered value, result, ← taken, Lanes.get_numbers,
    UInt32.ofNat_uInt8ToNat]

theorem Supplies.legal_scalar (supplies : g.Supplies lane r source)
    (formed : g.WellFormed) {vector scalar : Ref} (value : g.IsValue r)
    (found : g.op? source = some (.insert lane vector scalar))
    (uniform : g.Uniform scalar) : g.Legal r (.reuse scalar) := by
  refine .reuse (.value value ⟨uniform.isValue, ?_⟩)
  intro call sound
  obtain ⟨sourceSound, v, w, read, taken, result⟩ := supplies.lanes call sound
  rw [value_eq formed.ordered found] at read
  obtain ⟨x, _, read⟩ := bind_eq_ok.mp read
  obtain ⟨y, scalarRead, set⟩ := bind_eq_ok.mp read
  obtain ⟨_, lanes⟩ := Lanes.setLane_eq_ok set
  obtain ⟨_, taken⟩ := Lanes.lane_eq_ok.mp taken
  refine ⟨sourceSound.operand found (by simp [Op.operands]), ?_⟩
  rw [scalarRead, result, ← taken, lanes, if_pos rfl]
  exact congrArg Except.ok (uniform.lanes call y scalarRead)

theorem seekLane_legal (formed : g.WellFormed) {extracted : Ref}
    (found : g.op? r = some (.extract lane extracted)) (memo : UniformMemo)
    (trusts : g.Trusts memo) (supplies : g.Supplies lane r source) :
    g.Legal r (g.seekLane lane extracted source memo).1 ∧
      g.Trusts (g.seekLane lane extracted source memo).2 := by
  have value : g.IsValue r := ⟨_, found⟩
  induction source using Nat.strongRecOn generalizing memo with
  | ind source induction =>
      have stop : g.Legal r
          (if source = extracted then .keep
            else .create (.extract lane source)) := by
        split
        · exact .keep
        · exact supplies.legal_extract value
      rw [seekLane]
      obtain ⟨positive, trusts⟩ :=
        isUniform_answers formed.ordered source memo trusts
      dsimp only
      split
      next uniform =>
        exact ⟨supplies.legal_reuse value (positive uniform), trusts⟩
      next =>
      split
      next numbers => exact ⟨supplies.legal_number formed found numbers, trusts⟩
      next l vector scalar inserted =>
        split
        next same =>
          subst same
          obtain ⟨positive, trusts⟩ :=
            isUniform_answers formed.ordered scalar _ trusts
          refine ⟨?_, trusts⟩
          dsimp only
          split
          next uniform =>
            exact supplies.legal_scalar formed value inserted (positive uniform)
          next => exact stop
        next other =>
        split
        next before =>
          exact induction vector before _ trusts
            (supplies.passBy formed inserted other)
        next => exact ⟨stop, trusts⟩
      next => exact ⟨stop, trusts⟩

theorem promotionRule_lawful : Lawful promotionRule Trusts where
  grow g h memo formed formed' grown trusts := by
    intro r entry
    exact (trusts r entry).mono formed formed'.ordered grown
  legal g memo r n formed trusts _ := by
    unfold promotionRule
    split
    next lane source found =>
      exact seekLane_legal formed found memo trusts
        (supplies_extracted formed found)
    next => exact ⟨.keep, trusts⟩

end Graph

theorem Program.kept_promoteLanes {p : Program} (formed : p.WellFormed) :
    p.Kept p.promoteLanes := by
  refine kept_sweepWith Graph.promotionRule_lawful formed ?_
  intro r entry
  simp at entry

end VertexFetch
