import VertexFetch.Op.Eval

namespace VertexFetch

theorem bind_eq_ok {ε α β : Type} {x : Except ε α} {f : α → Except ε β}
    {b : β} : x >>= f = .ok b ↔ ∃ a, x = .ok a ∧ f a = .ok b := by
  cases x with
  | error e => simp [bind, Except.bind]
  | ok a => simp [bind, Except.bind]

namespace Lanes

theorem get_eq_getElem (v : Lanes) (i : Fin 8) : v.get i = v[i.val] := rfl

theorem ext_get {v w : Lanes} (same : ∀ i, v.get i = w.get i) : v = w := by
  apply Vector.ext
  intro i inside
  exact same ⟨i, inside⟩

@[simp]
theorem get_splat (w : UInt32) (i : Fin 8) : (splat w).get i = w := by
  rw [get_eq_getElem]
  exact Vector.getElem_replicate i.isLt

@[simp]
theorem get_zero (i : Fin 8) : zero.get i = 0 :=
  get_splat 0 i

@[simp]
theorem get_ofFn (f : Fin 8 → UInt32) (i : Fin 8) :
    (Vector.ofFn f : Lanes).get i = f i := by
  rw [get_eq_getElem]
  exact Vector.getElem_ofFn i.isLt

@[simp]
theorem get_zipWith (f : UInt32 → UInt32 → UInt32) (v w : Lanes) (i : Fin 8) :
    (v.zipWith f w).get i = f (v.get i) (w.get i) := by
  rw [get_eq_getElem]
  exact Vector.getElem_zipWith i.isLt

@[simp]
theorem get_map (f : UInt32 → UInt32) (v : Lanes) (i : Fin 8) :
    (v.map f).get i = f (v.get i) := by
  rw [get_eq_getElem]
  exact Vector.getElem_map f i.isLt

@[simp]
theorem get_numbers (i : Fin 8) : numbers.get i = UInt32.ofNat i.val :=
  get_ofFn _ i

theorem forall_lane {P : Fin 8 → Prop} :
    (∀ i, P i) ↔ P 0 ∧ P 1 ∧ P 2 ∧ P 3 ∧ P 4 ∧ P 5 ∧ P 6 ∧ P 7 := by
  constructor
  · intro all
    exact ⟨all 0, all 1, all 2, all 3, all 4, all 5, all 6, all 7⟩
  · rintro ⟨h0, h1, h2, h3, h4, h5, h6, h7⟩ i
    match i with
    | 0 => exact h0
    | 1 => exact h1
    | 2 => exact h2
    | 3 => exact h3
    | 4 => exact h4
    | 5 => exact h5
    | 6 => exact h6
    | 7 => exact h7

theorem ofFnM_eq_ok {ε : Type} {f : Fin 8 → Except ε UInt32} {v : Lanes} :
    ofFnM f = .ok v ↔ ∀ i, f i = .ok (v.get i) := by
  rw [forall_lane]
  unfold ofFnM
  simp only [bind_eq_ok]
  constructor
  · rintro ⟨a, ha, b, hb, c, hc, d, hd, e, he, p, hp, q, hq, r, hr, made⟩
    cases made
    exact ⟨ha, hb, hc, hd, he, hp, hq, hr⟩
  · rintro ⟨ha, hb, hc, hd, he, hp, hq, hr⟩
    refine ⟨_, ha, _, hb, _, hc, _, hd, _, he, _, hp, _, hq, _, hr, ?_⟩
    refine congrArg Except.ok (ext_get ?_)
    rw [forall_lane]
    exact ⟨rfl, rfl, rfl, rfl, rfl, rfl, rfl, rfl⟩

theorem lane_eq_ok {v : Lanes} {n : UInt8} {w : UInt32} :
    v.lane n = .ok w ↔ ∃ inside : n.toNat < 8, v.get ⟨n.toNat, inside⟩ = w := by
  unfold lane
  split
  next inside => simp [get_eq_getElem, inside]
  next outside => simp [outside]

theorem setLane_eq_ok {v next : Lanes} {n : Nat} {w : UInt32}
    (set : v.setLane n w = .ok next) :
    ∃ inside : n < 8, ∀ i, next.get i =
      if i = ⟨n, inside⟩ then w else v.get i := by
  unfold setLane at set
  split at set
  next inside =>
    cases set
    refine ⟨inside, ?_⟩
    intro i
    rw [get_eq_getElem, Vector.getElem_set]
    by_cases same : i = ⟨n, inside⟩
    · rw [if_pos same, if_pos (by rw [same])]
    · rw [if_neg same, if_neg fun equal => same (Fin.ext equal.symm),
        get_eq_getElem]
  next => cases set

end Lanes
end VertexFetch
