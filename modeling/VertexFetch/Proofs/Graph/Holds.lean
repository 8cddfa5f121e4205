import VertexFetch.Proofs.Graph.Sound
import VertexFetch.Proofs.Lanes

namespace VertexFetch

namespace Lanes

theorem get_shuffle (a b : Lanes) (s : LaneSelector) (i : Fin 8) :
    (a.shuffle b s).get i =
      if low : (s.get i).toNat < 8 then a.get ⟨(s.get i).toNat, low⟩
      else if high : (s.get i).toNat < 16 then
        b.get ⟨(s.get i).toNat - 8, by omega⟩
      else 0 := by
  have entry : (a.shuffle b s).get i = (a ++ b)[(s.get i).toNat]?.getD 0 := by
    rw [shuffle, get_eq_getElem, Vector.getElem_map]
    rfl
  rw [entry]
  split
  next low =>
    rw [Vector.getElem?_eq_getElem (by omega), Vector.getElem_append_left low]
    rfl
  next outside =>
  split
  next high =>
    rw [Vector.getElem?_eq_getElem (by omega),
      Vector.getElem_append_right (by omega) (by omega)]
    rfl
  next beyond =>
    rw [Vector.getElem?_eq_none (by omega)]
    rfl

theorem get_permute (a : Lanes) (s : LaneSelector) (i : Fin 8) :
    (a.permute s).get i =
      if inside : (s.get i).toNat < 8 then a.get ⟨(s.get i).toNat, inside⟩
      else 0 := by
  have entry : (a.permute s).get i = a[(s.get i).toNat]?.getD 0 := by
    rw [permute, get_eq_getElem, Vector.getElem_map]
    rfl
  rw [entry]
  split
  next inside =>
    rw [Vector.getElem?_eq_getElem inside]
    rfl
  next outside =>
    rw [Vector.getElem?_eq_none (by omega)]
    rfl

theorem setLane_ofFn {n : Nat} (inside : n < 8) (x : Fin 8 → UInt32)
    (w : UInt32) :
    setLane (Vector.ofFn x) n w =
      .ok (Vector.ofFn fun i => if i.val = n then w else x i) := by
  rw [setLane, dif_pos inside]
  refine congrArg Except.ok (ext_get ?_)
  intro i
  rw [get_eq_getElem, Vector.getElem_set, get_ofFn]
  by_cases same : i.val = n
  · rw [if_pos same.symm, if_pos same]
  · rw [if_neg (Ne.symm same), if_neg same, Vector.getElem_ofFn]

end Lanes

theorem LaneSelector.guard_ok {s : LaneSelector} {n : Nat}
    (inside : ∀ i, (s.get i).toNat < n) (v : Lanes) : s.guard n v = .ok v := by
  refine if_pos ?_
  rw [Vector.all_eq_true]
  intro i bound
  exact decide_eq_true (inside ⟨i, bound⟩)

theorem ChannelLoad.read_ok {l : ChannelLoad} {data : Array UInt8}
    {offset : Nat} {word : Nat → UInt32} (few : l.channels.toNat ≤ 8)
    (reads : ∀ k < l.channels.toNat,
      readWord data (offset + k * l.channelBytes) l.channelBytes =
      .ok (word k)) :
    l.read data offset =
      .ok (Vector.ofFn fun i =>
        if i.val < l.channels.toNat then l.extend (word i.val) else 0) := by
  have upTo : ∀ n ≤ l.channels.toNat, (List.range n).foldlM (fun v k => do
      let raw ← readWord data (offset + k * l.channelBytes) l.channelBytes
      v.setLane k (l.extend raw)) Lanes.zero =
        .ok (Vector.ofFn fun i => if i.val < n then l.extend (word i.val)
          else 0) := by
    intro n
    induction n with
    | zero =>
        intro _
        refine congrArg Except.ok (Lanes.ext_get ?_)
        intro i
        simp
    | succ n induction =>
        intro bound
        rw [List.range_succ, List.foldlM_append, induction (by omega)]
        refine bind_eq_ok.mpr ⟨_, rfl, ?_⟩
        simp only [List.foldlM_cons, reads n bound, List.foldlM_nil, bind_pure]
        refine (Lanes.setLane_ofFn (by omega) _ _).trans
          (congrArg Except.ok (Lanes.ext_get ?_))
        intro i
        simp only [Lanes.get_ofFn]
        by_cases here : i.val = n
        · simp [here]
        · rw [if_neg here]
          by_cases before : i.val < n
          · rw [if_pos before, if_pos (by omega)]
          · rw [if_neg before, if_neg (by omega)]
  exact upTo _ (Nat.le_refl _)

namespace Graph

/-- In every call of the class the node is sound and has these lanes. -/
def Holds (g : Graph) (C : Call → Prop) (r : Ref) (x : Fin 8 → UInt32) : Prop :=
  ∀ call, C call → g.Sound call r ∧ g.value call r = .ok (Vector.ofFn x)

namespace Holds

variable {g : Graph} {C : Call → Prop} {r a b c : Ref}
  {x y z v : Fin 8 → UInt32}

theorem of_eval (formed : g.WellFormed) {op : Op Ref}
    (found : g.op? r = some op)
    (operands : ∀ a ∈ op.operands, ∃ x, g.Holds C a x)
    (evaluated : ∀ call, C call →
      op.eval call (g.value call) = .ok (Vector.ofFn v))
    (numeric : op.Numeric (Vector.ofFn v)) : g.Holds C r v := by
  intro call inside
  have value :=
    (value_eq formed.ordered found call).trans (evaluated call inside)
  refine ⟨.mk found ?_ value numeric, value⟩
  intro a named
  obtain ⟨x, holds⟩ := operands a named
  exact (holds call inside).1

theorem mono {h : Graph} (formed : g.WellFormed) (formed' : h.WellFormed)
    (grown : g ≤ h) (holds : g.Holds C r x) : h.Holds C r x := by
  intro call inside
  obtain ⟨sound, value⟩ := holds call inside
  refine ⟨sound.mono formed formed'.ordered grown, ?_⟩
  rw [value_mono formed formed'.ordered grown call sound.isValue, value]

theorem ext (holds : g.Holds C r x) (same : ∀ i, x i = y i) : g.Holds C r y :=
  funext same ▸ holds

theorem alone (operand : g.Holds C a x) : ∀ c ∈ [a], ∃ x, g.Holds C c x := by
  intro c member
  obtain rfl := List.mem_singleton.mp member
  exact ⟨x, operand⟩

theorem pair (left : g.Holds C a x) (right : g.Holds C b y) :
    ∀ c ∈ [a, b], ∃ x, g.Holds C c x := by
  intro c member
  rcases List.mem_cons.mp member with rfl | member
  · exact ⟨x, left⟩
  · exact right.alone c member

variable (formed : g.WellFormed)
include formed

theorem word {w : UInt32} (found : g.op? r = some (.word w)) :
    g.Holds C r fun _ => w := by
  refine of_eval formed found (by simp [Op.operands]) ?_ (by simp [Op.Numeric])
  intro call _
  exact congrArg Except.ok (Lanes.ext_get fun i => by simp)

theorem single {w : UInt32} (found : g.op? r = some (.single w)) :
    g.Holds C r fun _ => w := by
  refine of_eval formed found (by simp [Op.operands]) ?_ (by simp [Op.Numeric])
  intro call _
  exact congrArg Except.ok (Lanes.ext_get fun i => by simp)

theorem argument {a : Argument} {w : UInt32}
    (found : g.op? r = some (.argument a))
    (given : ∀ call, C call → call.argument a = w) :
    g.Holds C r fun _ => w := by
  refine of_eval formed found (by simp [Op.operands]) ?_ (by simp [Op.Numeric])
  intro call inside
  exact congrArg Except.ok (Lanes.ext_get fun i => by simp [given call inside])

theorem stream {s : UInt8} {f : Stream.Field} {w : UInt32}
    (found : g.op? r = some (.stream s f))
    (given : ∀ call, C call → ∃ st, call.stream s = .ok st ∧ st.field f = w) :
    g.Holds C r fun _ => w := by
  refine of_eval formed found (by simp [Op.operands]) ?_ (by simp [Op.Numeric])
  intro call inside
  obtain ⟨st, bound, field⟩ := given call inside
  simp only [Op.eval, bound]
  exact congrArg Except.ok (Lanes.ext_get fun i => by simp [field])

theorem laneNumbers (found : g.op? r = some .laneNumbers) :
    g.Holds C r fun i => UInt32.ofNat i.val := by
  refine of_eval formed found (by simp [Op.operands]) ?_ (by simp [Op.Numeric])
  intro call _
  rfl

theorem binary {f : Binary} (found : g.op? r = some (.binary f a b))
    (left : g.Holds C a x) (right : g.Holds C b y)
    (notProduct : f ≠ .mulSingle) :
    g.Holds C r fun i => f.apply (x i) (y i) := by
  refine of_eval formed found (left.pair right) ?_ ?_
  · intro call inside
    simp only [Op.eval, (left call inside).2, (right call inside).2]
    exact congrArg Except.ok (Lanes.ext_get fun i => by simp)
  · intro a b product
    cases product
    exact absurd rfl notProduct

theorem product (found : g.op? r = some (.binary .mulSingle a b))
    (left : g.Holds C a x) (right : g.Holds C b y)
    (number : ∀ i, Single.isNaN (Single.mul (x i) (y i)) = false) :
    g.Holds C r fun i => Single.mul (x i) (y i) := by
  refine of_eval formed found (left.pair right) ?_ ?_
  · intro call inside
    simp only [Op.eval, (left call inside).2, (right call inside).2]
    exact congrArg Except.ok (Lanes.ext_get fun i => by simp [Binary.apply])
  · intro a b _ i
    rw [Lanes.get_ofFn]
    exact number i

theorem round {f : Rounding} (found : g.op? r = some (.round f a))
    (operand : g.Holds C a x) : g.Holds C r fun i => f.apply (x i) := by
  refine of_eval formed found operand.alone ?_ (by simp [Op.Numeric])
  intro call inside
  simp only [Op.eval, (operand call inside).2]
  exact congrArg Except.ok (Lanes.ext_get fun i => by simp)

theorem select (found : g.op? r = some (.select c a b))
    (condition : g.Holds C c z) (left : g.Holds C a x) (right : g.Holds C b y) :
    g.Holds C r fun i => Word.select (z i) (x i) (y i) := by
  refine of_eval formed found ?_ ?_ (by simp [Op.Numeric])
  · simp only [Op.operands, List.mem_cons, List.not_mem_nil, or_false]
    rintro _ (rfl | rfl | rfl)
    · exact ⟨z, condition⟩
    · exact ⟨x, left⟩
    · exact ⟨y, right⟩
  · intro call inside
    simp only [Op.eval, (condition call inside).2, (left call inside).2,
      (right call inside).2]
    exact congrArg Except.ok (Lanes.ext_get fun i => by simp)

theorem extract {lane : UInt8} (found : g.op? r = some (.extract lane a))
    (operand : g.Holds C a x) (bound : lane.toNat < 8) :
    g.Holds C r fun _ => x ⟨lane.toNat, bound⟩ := by
  refine of_eval formed found operand.alone ?_ (by simp [Op.Numeric])
  intro call inside
  have taken : Lanes.lane (Vector.ofFn x) lane = .ok (x ⟨lane.toNat, bound⟩) :=
    Lanes.lane_eq_ok.mpr ⟨bound, Lanes.get_ofFn _ _⟩
  simp only [Op.eval, (operand call inside).2]
  refine bind_eq_ok.mpr ⟨_, rfl, bind_eq_ok.mpr ⟨_, taken, ?_⟩⟩
  exact congrArg Except.ok (Lanes.ext_get fun i => by simp)

theorem insert {lane : UInt8} (found : g.op? r = some (.insert lane a b))
    (vector : g.Holds C a x) (scalar : g.Holds C b y) (bound : lane.toNat < 8) :
    g.Holds C r fun i => if i.val = lane.toNat then y 0 else x i := by
  refine of_eval formed found (vector.pair scalar) ?_ (by simp [Op.Numeric])
  intro call inside
  simp only [Op.eval, (vector call inside).2, (scalar call inside).2]
  refine (Lanes.setLane_ofFn bound x _).trans ?_
  rw [Lanes.first, Lanes.get_ofFn]

theorem shuffle {s : LaneSelector} (found : g.op? r = some (.shuffle a b s))
    (left : g.Holds C a x) (right : g.Holds C b y)
    (bounds : ∀ i, (s.get i).toNat < 16) :
    g.Holds C r fun i =>
      if low : (s.get i).toNat < 8 then x ⟨(s.get i).toNat, low⟩
      else y ⟨(s.get i).toNat - 8, by have := bounds i; omega⟩ := by
  refine of_eval formed found (left.pair right) ?_ (by simp [Op.Numeric])
  intro call inside
  simp only [Op.eval, (left call inside).2, (right call inside).2]
  refine (LaneSelector.guard_ok bounds _).trans
    (congrArg Except.ok (Lanes.ext_get ?_))
  intro i
  simp only [Lanes.get_shuffle, Lanes.get_ofFn, dif_pos (bounds i)]

theorem permute {s : LaneSelector} (found : g.op? r = some (.permute a s))
    (operand : g.Holds C a x) (bounds : ∀ i, (s.get i).toNat < 8) :
    g.Holds C r fun i => x ⟨(s.get i).toNat, bounds i⟩ := by
  refine of_eval formed found operand.alone ?_ (by simp [Op.Numeric])
  intro call inside
  simp only [Op.eval, (operand call inside).2]
  refine (LaneSelector.guard_ok bounds _).trans
    (congrArg Except.ok (Lanes.ext_get ?_))
  intro i
  simp only [Lanes.get_permute, Lanes.get_ofFn, dif_pos (bounds i)]

theorem shuffleBytes {s : ByteSelector}
    (found : g.op? r = some (.shuffleBytes a s)) (operand : g.Holds C a x) :
    g.Holds C r (Lanes.shuffleBytes (Vector.ofFn x) s).get := by
  refine of_eval formed found operand.alone ?_ (by simp [Op.Numeric])
  intro call inside
  simp only [Op.eval, (operand call inside).2]
  exact congrArg Except.ok (Lanes.ext_get fun i => by simp)

theorem widen {k : Widening} (found : g.op? r = some (.widen k a))
    (operand : g.Holds C a x) :
    g.Holds C r (Lanes.widen (Vector.ofFn x) k).get := by
  refine of_eval formed found operand.alone ?_ (by simp [Op.Numeric])
  intro call inside
  simp only [Op.eval, (operand call inside).2]
  exact congrArg Except.ok (Lanes.ext_get fun i => by simp)

theorem indices {w : IndexWidth} (found : g.op? r = some (.indices w))
    (read : ∀ call, C call →
      ∀ i : Fin 8, call.index w (i.val * w.bytes) = .ok (v i)) :
    g.Holds C r v := by
  refine of_eval formed found (by simp [Op.operands]) ?_ (by simp [Op.Numeric])
  intro call inside
  rw [Op.eval, Lanes.ofFnM_eq_ok]
  intro i
  rw [Lanes.get_ofFn]
  exact read call inside i

theorem indicesMasked {w : IndexWidth}
    (found : g.op? r = some (.indicesMasked w a)) (mask : g.Holds C a x)
    (masked : ∀ i, x i = 0 → v i = 0)
    (read : ∀ call, C call →
      ∀ i : Fin 8, x i ≠ 0 → call.index w (i.val * w.bytes) = .ok (v i)) :
    g.Holds C r v := by
  refine of_eval formed found mask.alone ?_ (by simp [Op.Numeric])
  intro call inside
  simp only [Op.eval, (mask call inside).2]
  refine bind_eq_ok.mpr ⟨_, rfl, Lanes.ofFnM_eq_ok.mpr ?_⟩
  intro i
  rw [Lanes.get_ofFn, Lanes.get_ofFn]
  split
  next zero => exact congrArg Except.ok (masked i zero).symm
  next set => exact read call inside i set

theorem index {w : IndexWidth} {u : UInt32}
    (found : g.op? r = some (.index w a b)) (offset : g.Holds C a x)
    (valid : g.Holds C b y) (invalid : y 0 = 0 → u = 0)
    (read : ∀ call, C call → y 0 ≠ 0 → call.index w (x 0).toNat = .ok u) :
    g.Holds C r fun _ => u := by
  refine of_eval formed found (offset.pair valid) ?_ (by simp [Op.Numeric])
  intro call inside
  simp only [Op.eval, (offset call inside).2, (valid call inside).2]
  refine bind_eq_ok.mpr ⟨_, rfl, ?_⟩
  rw [Lanes.first, Lanes.get_ofFn]
  split
  next zero =>
    exact congrArg Except.ok (Lanes.ext_get fun i => by simp [invalid zero])
  next set =>
    refine bind_eq_ok.mpr ⟨_, rfl, bind_eq_ok.mpr ⟨u, ?_, ?_⟩⟩
    · rw [Lanes.first, Lanes.get_ofFn]
      exact read call inside set
    · exact congrArg Except.ok (Lanes.ext_get fun i => by simp)

theorem load {s : UInt8} {l : ChannelLoad}
    (found : g.op? r = some (.load s l a b)) (offset : g.Holds C a x)
    (valid : g.Holds C b y) (invalid : y 0 = 0 → ∀ i, v i = 0)
    (read : ∀ call, C call → y 0 ≠ 0 → ∃ st, call.stream s = .ok st ∧
      l.read st.data (x 0).toNat = .ok (Vector.ofFn v)) : g.Holds C r v := by
  refine of_eval formed found (offset.pair valid) ?_ (by simp [Op.Numeric])
  intro call inside
  simp only [Op.eval, (offset call inside).2, (valid call inside).2]
  refine bind_eq_ok.mpr ⟨_, rfl, ?_⟩
  rw [Lanes.first, Lanes.get_ofFn]
  split
  next zero =>
    exact congrArg Except.ok (Lanes.ext_get fun i => by simp [invalid zero])
  next set =>
    obtain ⟨st, bound, read⟩ := read call inside set
    refine bind_eq_ok.mpr ⟨st, bound, bind_eq_ok.mpr ⟨_, rfl, ?_⟩⟩
    rw [Lanes.first, Lanes.get_ofFn]
    exact read

theorem gather {s bytes : UInt8} (found : g.op? r = some (.gather s bytes a b))
    (offsets : g.Holds C a x) (mask : g.Holds C b y)
    (masked : ∀ i, y i = 0 → v i = 0)
    (read : ∀ call, C call → ∃ st, call.stream s = .ok st ∧
      ∀ i, y i ≠ 0 → readWord st.data (x i).toNat bytes.toNat = .ok (v i)) :
    g.Holds C r v := by
  refine of_eval formed found (offsets.pair mask) ?_ (by simp [Op.Numeric])
  intro call inside
  obtain ⟨st, bound, read⟩ := read call inside
  simp only [Op.eval, (offsets call inside).2, (mask call inside).2]
  refine bind_eq_ok.mpr
    ⟨st, bound, bind_eq_ok.mpr ⟨_, rfl, bind_eq_ok.mpr ⟨_, rfl, ?_⟩⟩⟩
  rw [Lanes.ofFnM_eq_ok]
  intro i
  rw [Lanes.get_ofFn, Lanes.get_ofFn, Lanes.get_ofFn]
  split
  next zero => exact congrArg Except.ok (masked i zero).symm
  next set => exact read i set

end Holds
end Graph
end VertexFetch
