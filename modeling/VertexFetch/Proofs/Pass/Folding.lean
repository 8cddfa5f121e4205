import VertexFetch.Pass.Folding
import VertexFetch.Proofs.Graph.Sweep
import VertexFetch.Proofs.Lanes
import VertexFetch.Proofs.Single
import VertexFetch.Proofs.Word

namespace VertexFetch

namespace Binary

structure Fits (f : Binary) (a b : Ref) (x y : Option UInt32) (u v : UInt32) :
    Prop where
  left : ∀ w, x = some w → u = w
  right : ∀ w, y = some w → v = w
  same : a = b → u = v
  number : f = .mulSingle → Single.isNaN (f.apply u v) = false

inductive Decides (f : Binary) (a b : Ref) (x y : Option UInt32) :
    Replacement → Prop
  | keep : Decides f a b x y .keep
  | left : (∀ u v, Fits f a b x y u v → f.apply u v = u) →
        Decides f a b x y (.reuse a)
  | right : (∀ u v, Fits f a b x y u v → f.apply u v = v) →
        Decides f a b x y (.reuse b)
  | literal {op : Op Ref} {w : UInt32} : op.literal? = some w →
      (∀ u v, Fits f a b x y u v → f.apply u v = w) →
      Decides f a b x y (.create op)

variable {a b : Ref} {x y : Option UInt32}

private theorem decides_product_zero {f : Binary}
    (zero : x = some 0 ∨ y = some 0) (left : ∀ v, f.apply 0 v = 0)
    (right : ∀ u, f.apply u 0 = 0) : Decides f a b x y (.create (.word 0)) := by
  refine .literal rfl ?_
  intro u v fits
  rcases zero with zero | zero
  · rw [fits.left 0 zero, left]
  · rw [fits.right 0 zero, right]

private theorem decides_left {f : Binary} {w : UInt32} (unit : y = some w)
    (law : ∀ u, f.apply u w = u) : Decides f a b x y (.reuse a) := by
  refine .left ?_
  intro u v fits
  rw [fits.right w unit, law]

private theorem decides_right {f : Binary} {w : UInt32} (unit : x = some w)
    (law : ∀ v, f.apply w v = v) : Decides f a b x y (.reuse b) := by
  refine .right ?_
  intro u v fits
  rw [fits.left w unit, law]

private theorem decides_same {f : Binary} {w : UInt32} (same : a = b)
    (law : ∀ u, f.apply u u = w) : Decides f a b x y (.create (.word w)) := by
  refine .literal rfl ?_
  intro u v fits
  rw [fits.same same, law]

theorem decides_simplify (f : Binary) (a b : Ref) (x y : Option UInt32) :
    Decides f a b x y (f.simplify a b x y) := by
  cases f with
  | add =>
      simp only [simplify]
      split
      next zero => exact decides_right zero UInt32.zero_add
      next =>
      split
      next zero => exact decides_left zero UInt32.add_zero
      next => exact .keep
  | sub =>
      simp only [simplify]
      split
      next zero => exact decides_left zero UInt32.sub_zero
      next =>
      split
      next same => exact decides_same same UInt32.sub_self
      next => exact .keep
  | mul =>
      simp only [simplify]
      split
      next zero =>
        exact decides_product_zero zero (fun _ => UInt32.zero_mul)
          fun _ => UInt32.mul_zero
      next =>
      split
      next one => exact decides_right one UInt32.one_mul
      next =>
      split
      next one => exact decides_left one UInt32.mul_one
      next => exact .keep
  | divSigned =>
      simp only [simplify]
      split
      next zero =>
        exact decides_product_zero zero Word.zero_divSigned Word.divSigned_zero
      next =>
      split
      next one => exact decides_left one Word.divSigned_one
      next => exact .keep
  | divUnsigned =>
      simp only [simplify]
      split
      next zero =>
        exact decides_product_zero zero (fun _ => UInt32.zero_div)
          fun _ => UInt32.div_zero
      next =>
      split
      next one => exact decides_left one fun _ => UInt32.div_one
      next => exact .keep
  | and =>
      simp only [simplify]
      split
      next zero =>
        exact decides_product_zero zero (fun _ => UInt32.zero_and)
          fun _ => UInt32.and_zero
      next =>
      split
      next ones => exact decides_right ones Word.ones_and
      next =>
      split
      next ones => exact decides_left ones Word.and_ones
      next =>
      split
      next same =>
        refine .left ?_
        intro u v fits
        rw [← fits.same same]
        exact UInt32.and_self
      next => exact .keep
  | mulSingle => exact .keep
  | eq =>
      simp only [simplify]
      split
      next same => exact decides_same same fun _ => by simp [apply]
      next => exact .keep
  | ltSigned =>
      simp only [simplify]
      split
      next same =>
        exact decides_same same fun _ => by rw [apply, Word.ltSigned_self]
      next => exact .keep
  | gtSigned =>
      simp only [simplify]
      split
      next same =>
        exact decides_same same fun _ => by rw [apply, Word.ltSigned_self]
      next => exact .keep
  | ltUnsigned =>
      simp only [simplify]
      split
      next known =>
        refine .literal rfl ?_
        intro u v fits
        rcases known with zero | same
        · simp [apply, fits.right 0 zero]
        · simp [apply, fits.same same]
      next => exact .keep
  | leUnsigned =>
      simp only [simplify]
      split
      next known =>
        refine .literal rfl ?_
        intro u v fits
        rcases known with zero | ones | same
        · simp [apply, fits.left 0 zero]
        · have below : u ≤ 0xffffffff :=
            UInt32.le_iff_toNat_le.mpr (Nat.le_pred_of_lt u.toNat_lt)
          simp [apply, fits.right _ ones, below]
        · simp [apply, fits.same same]
      next => exact .keep

/-- Beside the literal one a product is the other factor, unless that is no
number: then the product is the one NaN there is for it. -/
theorem decides_simplifyProduct (a b : Ref) (x y : Option UInt32) :
    Decides .mulSingle a b x y (simplifyProduct a b x y) := by
  have beside_left : x = some Single.one →
      Decides .mulSingle a b x y (.reuse b) := by
    intro one
    refine .right ?_
    intro u v fits
    have number := fits.number rfl
    simp only [apply, fits.left _ one, Single.mul_comm Single.one] at number ⊢
    exact Single.mul_one (Single.isNaN_left_of_mul number)
  have beside_right : y = some Single.one →
      Decides .mulSingle a b x y (.reuse a) := by
    intro one
    refine .left ?_
    intro u v fits
    have number := fits.number rfl
    simp only [apply, fits.right _ one] at number ⊢
    exact Single.mul_one (Single.isNaN_left_of_mul number)
  unfold simplifyProduct
  split
  next first second =>
    refine .literal rfl ?_
    intro u v fits
    rw [fits.left first rfl, fits.right second rfl]
    rfl
  next =>
  split
  next one => exact beside_left one
  next =>
  split
  next one => exact beside_right one
  next => exact .keep

end Binary

namespace Lanes

theorem permute_splat {w : UInt32} {s : LaneSelector} {v : Lanes}
    (guarded : s.guard 8 ((splat w).permute s) = .ok v) : v = splat w := by
  unfold LaneSelector.guard at guarded
  split at guarded
  next inside =>
    cases guarded
    rw [Vector.all_eq_true] at inside
    apply Vector.ext
    intro i bound
    have lane : s[i].toNat < 8 := by simpa using inside i bound
    simp [permute, splat, lane]
  next => cases guarded

theorem shuffle_splat {w : UInt32} {s : LaneSelector} {v : Lanes}
    (guarded : s.guard 16 ((splat w).shuffle (splat w) s) = .ok v) :
    v = splat w := by
  unfold LaneSelector.guard at guarded
  split at guarded
  next inside =>
    cases guarded
    rw [Vector.all_eq_true] at inside
    apply Vector.ext
    intro i bound
    have lane : s[i].toNat < 8 + 8 := by simpa using inside i bound
    simp only [shuffle, splat, Vector.getElem_map,
      Vector.getElem?_eq_getElem lane, Vector.getElem_append,
      Vector.getElem_replicate, dite_eq_ite, ite_self, Option.getD_some]
  next => cases guarded

theorem byte_zero (j : Fin 32) : zero.byte j = 0 := by
  rw [byte, get_zero, Word.byte_zero]

theorem half_zero (j : Fin 16) : zero.half j = 0 := by
  rw [half, get_zero, Word.half_zero]

theorem shuffleBytes_zero (s : ByteSelector) : zero.shuffleBytes s = zero := by
  apply ext_get
  intro i
  simp only [shuffleBytes, ofByteFn, byte_zero, ite_self, get_ofFn, get_zero]
  rfl

theorem widen_zero (k : Widening) : zero.widen k = zero := by
  apply ext_get
  intro i
  cases k with
  | sign8 =>
      simp only [widen, byte_zero, get_ofFn, get_zero]
      rfl
  | sign16 =>
      simp only [widen, half_zero, get_ofFn, get_zero]
      rfl
  | half =>
      simp only [widen, half_zero, get_ofFn, get_zero]
      rfl

end Lanes

theorem readWord_empty {data : Array UInt8} {offset : Nat} {w : UInt32}
    (read : readWord data offset 0 = .ok w) : w = 0 := by
  unfold readWord at read
  split at read
  next => cases read
  next =>
    rw [if_neg (by decide)] at read
    cases read
    simp [Word.littleEndian]

namespace Graph

variable {g : Graph} {r : Ref}

theorem literal?_of_single? {a : Ref} {w : UInt32}
    (single : g.single? a = some w) : g.literal? a = some w := by
  unfold single? at single
  split at single
  next found =>
    cases single
    simp [literal?, found, Op.literal?]
  next => cases single

theorem eval_binary {call : Call} {f : Binary} {a b : Ref} {x y : Lanes}
    (first : g.value call a = .ok x) (second : g.value call b = .ok y) :
    (Op.binary f a b).eval call (g.value call) = .ok (x.zipWith f.apply y) := by
  simp only [Op.eval, first, second]
  rfl

theorem legal_of_decides (formed : g.WellFormed) {f : Binary} {a b : Ref}
    (found : g.op? r = some (.binary f a b)) {x y : Option UInt32}
    (left : ∀ w, x = some w → g.literal? a = some w)
    (right : ∀ w, y = some w → g.literal? b = some w)
    {replacement : Replacement} (decides : f.Decides a b x y replacement) :
    g.Legal r replacement := by
  have fits : ∀ call, g.Sound call r →
      ∃ u v, g.value call a = .ok u ∧ g.value call b = .ok v ∧
      ∀ i, f.Fits a b x y (u.get i) (v.get i) := by
    intro call sound
    obtain ⟨u, first⟩ :=
      (sound.operand found (a := a) (by simp [Op.operands])).value
    obtain ⟨v, second⟩ :=
      (sound.operand found (a := b) (by simp [Op.operands])).value
    refine ⟨u, v, first, second, ?_⟩
    intro i
    refine ⟨?_, ?_, ?_, ?_⟩
    · intro w literal
      rw [value_of_literal? formed.ordered (left w literal)] at first
      cases first
      exact Lanes.get_splat w i
    · intro w literal
      rw [value_of_literal? formed.ordered (right w literal)] at second
      cases second
      exact Lanes.get_splat w i
    · intro same
      rw [← same, first] at second
      cases second
      rfl
    · intro product
      have value :=
        (value_eq formed.ordered found call).trans (eval_binary first second)
      rw [← Lanes.get_zipWith f.apply u v i]
      exact sound.numeric found value a b (by rw [product]) i
  cases decides with
  | keep => exact .keep
  | left law =>
      refine .operand formed found (by simp [Op.operands]) ?_
      intro call sound
      obtain ⟨u, v, first, second, fits⟩ := fits call sound
      rw [eval_binary first second, first]
      refine congrArg Except.ok (Lanes.ext_get ?_)
      intro i
      rw [Lanes.get_zipWith, law _ _ (fits i)]
  | right law =>
      refine .operand formed found (by simp [Op.operands]) ?_
      intro call sound
      obtain ⟨u, v, first, second, fits⟩ := fits call sound
      rw [eval_binary first second, second]
      refine congrArg Except.ok (Lanes.ext_get ?_)
      intro i
      rw [Lanes.get_zipWith, law _ _ (fits i)]
  | literal literal law =>
      refine .literal formed found literal ?_
      intro call sound
      obtain ⟨u, v, first, second, fits⟩ := fits call sound
      rw [eval_binary first second]
      refine congrArg Except.ok (Lanes.ext_get ?_)
      intro i
      rw [Lanes.get_zipWith, Lanes.get_splat, law _ _ (fits i)]

theorem foldOp_binary_legal (formed : g.WellFormed) {f : Binary} {a b : Ref}
    (found : g.op? r = some (.binary f a b)) :
    g.Legal r (g.foldOp (.binary f a b)) := by
  by_cases product : f = .mulSingle
  · subst product
    exact legal_of_decides formed found (fun _ => literal?_of_single?)
      (fun _ => literal?_of_single?) (Binary.decides_simplifyProduct a b _ _)
  · refine legal_of_decides formed found (fun _ => id) (fun _ => id) ?_
    have simplified := f.decides_simplify a b (g.literal? a) (g.literal? b)
    have constant : ∀ x y, g.literal? a = some x → g.literal? b = some y →
        f.Decides a b (g.literal? a) (g.literal? b)
          (.create (.word (f.apply x y))) := by
      intro x y first second
      refine .literal rfl ?_
      intro u v fits
      rw [fits.left x first, fits.right y second]
    cases f with
    | mulSingle => exact absurd rfl product
    | _ =>
        simp only [foldOp]
        split
        next x y first second => exact constant x y first second
        next => exact simplified

private theorem legal_reuse_literal (formed : g.WellFormed) {op : Op Ref}
    (found : g.op? r = some op) {a : Ref} (named : a ∈ op.operands)
    (literal : (g.literal? a).isSome = true)
    (same : ∀ w call v, g.literal? a = some w →
      op.eval call (g.value call) = .ok v →
      v = .splat w) : g.Legal r (.reuse a) := by
  refine .operand formed found named ?_
  intro call sound
  obtain ⟨w, literal⟩ := Option.isSome_iff_exists.mp literal
  obtain ⟨v, value⟩ := sound.value
  rw [value_eq formed.ordered found] at value
  rw [value_of_literal? formed.ordered literal, value,
    same w call v literal value]

private theorem legal_zero (formed : g.WellFormed) {op : Op Ref}
    (found : g.op? r = some op)
    (zero : ∀ call v, op.eval call (g.value call) = .ok v → v = .zero) :
    g.Legal r (.create (.word 0)) := by
  refine .literal formed found rfl ?_
  intro call sound
  obtain ⟨v, value⟩ := sound.value
  rw [value_eq formed.ordered found] at value
  rw [value, zero call v value]
  rfl

theorem foldOp_legal (formed : g.WellFormed) {op : Op Ref}
    (found : g.op? r = some op) : g.Legal r (g.foldOp op) := by
  have value {a : Ref} {w : UInt32} (literal : g.literal? a = some w)
      (call : Call) :
      g.value call a = .ok (.splat w) :=
        value_of_literal? formed.ordered literal call
  cases op with
  | binary f a b => exact foldOp_binary_legal formed found
  | round f a =>
      simp only [foldOp]
      split
      next x literal =>
        refine .literal formed found rfl ?_
        intro call _
        simp only [Op.eval, value literal]
        refine congrArg Except.ok (Lanes.ext_get ?_)
        intro i
        simp
      next => exact .keep
  | extract lane a =>
      simp only [foldOp]
      split
      next literal =>
        refine legal_reuse_literal formed found
          (by simp [Op.operands]) literal ?_
        intro w call v literal evaluated
        simp only [Op.eval, value literal, bind_eq_ok] at evaluated
        obtain ⟨_, read, _, taken, made⟩ := evaluated
        cases read
        cases made
        obtain ⟨_, taken⟩ := Lanes.lane_eq_ok.mp taken
        rw [← taken, Lanes.get_splat]
      next => exact .keep
  | permute a s =>
      simp only [foldOp]
      split
      next literal =>
        refine legal_reuse_literal formed found
          (by simp [Op.operands]) literal ?_
        intro w call v literal evaluated
        simp only [Op.eval, value literal] at evaluated
        exact Lanes.permute_splat evaluated
      next => exact .keep
  | shuffle a b s =>
      simp only [foldOp]
      split
      next literals =>
        refine legal_reuse_literal formed found
          (by simp [Op.operands]) literals.1 ?_
        intro w call v literal evaluated
        simp only [Op.eval, value literal,
          value (literals.2.symm.trans literal)] at evaluated
        exact Lanes.shuffle_splat evaluated
      next => exact .keep
  | shuffleBytes a s =>
      simp only [foldOp]
      split
      next literal =>
        refine legal_zero formed found ?_
        intro call v evaluated
        simp only [Op.eval, value literal] at evaluated
        cases evaluated
        exact Lanes.shuffleBytes_zero s
      next => exact .keep
  | widen k a =>
      simp only [foldOp]
      split
      next literal =>
        refine legal_zero formed found ?_
        intro call v evaluated
        simp only [Op.eval, value literal] at evaluated
        cases evaluated
        exact Lanes.widen_zero k
      next => exact .keep
  | indicesMasked w mask =>
      simp only [foldOp]
      split
      next literal =>
        refine legal_zero formed found ?_
        intro call v evaluated
        simp only [Op.eval, value literal] at evaluated
        cases evaluated
        rfl
      next =>
      split
      next literal =>
        refine .create ⟨_, found⟩ (by simp [Op.operands]) (by simp) ?_
        intro call _
        refine ⟨by simp [Op.operands], ?_⟩
        rw [value_eq formed.ordered found]
        simp only [Op.eval, value literal]
        rfl
      next => exact .keep
  | index w offset valid =>
      simp only [foldOp]
      split
      next literal =>
        refine legal_zero formed found ?_
        intro call v evaluated
        simp only [Op.eval, value literal] at evaluated
        cases evaluated
        rfl
      next => exact .keep
  | load s l offset valid =>
      simp only [foldOp]
      split
      next literal =>
        refine legal_zero formed found ?_
        intro call v evaluated
        simp only [Op.eval, value literal] at evaluated
        cases evaluated
        rfl
      next => exact .keep
  | gather s bytes offsets mask =>
      simp only [foldOp]
      split
      next known =>
        refine legal_zero formed found ?_
        intro call v evaluated
        simp only [Op.eval, bind_eq_ok] at evaluated
        obtain ⟨stream, _, place, _, m, masked, lanes⟩ := evaluated
        rw [Lanes.ofFnM_eq_ok] at lanes
        apply Lanes.ext_get
        intro i
        have lane := lanes i
        rw [Lanes.get_zero]
        split at lane
        next => exact (Except.ok.inj lane).symm
        next unmasked =>
          rcases known with zero | none
          · rw [value zero] at masked
            cases masked
            exact absurd (Lanes.get_splat 0 i) unmasked
          · rw [none] at lane
            exact readWord_empty lane
      next => exact .keep
  | _ => exact .keep

theorem foldingRule_legal (formed : g.WellFormed) (r : Ref) :
    g.Legal r (g.foldingRule r) := by
  unfold foldingRule
  split
  next op found => exact foldOp_legal formed found
  next => exact .keep

end Graph

theorem Program.kept_fold {p : Program} (formed : p.WellFormed) :
    p.Kept p.fold :=
  kept_sweep formed fun _ r _ formed _ => Graph.foldingRule_legal formed r

end VertexFetch
