import VertexFetch.Fetch.Rows
import VertexFetch.Proofs.Draft
import VertexFetch.Proofs.Graph.Holds

namespace VertexFetch.Fetch

open Build

/-- The place of packed component number `k`. -/
def place (k : Nat) : Target := .row (UInt8.ofNat (k / 4)) (UInt8.ofNat (k % 4))

theorem place_row (slot : Nat) (c : Fin 4) :
    place (4 * slot + c.val) = .row (UInt8.ofNat slot) (UInt8.ofNat c.val) := by
  have number : (4 * slot + c.val) / 4 = slot ∧
      (4 * slot + c.val) % 4 = c.val := by omega
  simp only [place, number]

/-- The places of components numbered from `n`, with what is stored there. -/
def placements {α : Type} (n : Nat) (values : List (Option α)) :
    List (Target × α) :=
  (values.zipIdx n).filterMap fun entry => entry.1.map
    fun v => (place entry.2, v)

theorem placements_append {α : Type} (n : Nat)
    (values others : List (Option α)) :
    placements n (values ++ others) =
      placements n values ++ placements (n + values.length) others := by
  simp [placements, List.zipIdx_append, List.filterMap_append]

theorem mem_placements {α : Type} {values : List (Option α)} {k : Nat} {x : α}
    (found : values[k]? = some (some x)) (n : Nat) :
    (place (n + k), x) ∈ placements n values := by
  refine List.mem_filterMap.mpr ⟨(some x, n + k), ?_, rfl⟩
  rw [List.mem_zipIdx_iff_le_and_getElem?_sub, Nat.add_sub_cancel_left]
  exact ⟨Nat.le_add_right n k, found⟩

def Delivers (g : Graph) (C : Call → Prop) (writes : List (Target × Ref))
    (outputs : List (Target × (Fin 8 → UInt32))) : Prop :=
  writes.Forall₂
    (fun write output => write.1 = output.1 ∧ g.Holds C write.2 output.2)
      outputs

theorem delivers_placements {g : Graph} {C : Call → Prop}
    {vectors : List (Option (Fin 8 → UInt32))} {values : List (Option Ref)}
    (filled : vectors.Forall₂ (Option.Rel fun x r => g.Holds C r x) values)
    (n : Nat) : Delivers g C (placements n values) (placements n vectors) := by
  induction filled generalizing n with
  | nil => exact .nil
  | cons here _ rest =>
      cases here with
      | none => exact rest (n + 1)
      | some holds => exact .cons ⟨rfl, holds⟩ (rest (n + 1))

namespace OpenRow

variable {known : List Ref}

def count (o : OpenRow) : Nat := 4 * o.row + o.components.length

def pending (o : OpenRow) : List (Target × Ref) :=
  placements (4 * o.row) o.components

def refs (o : OpenRow) : List Ref := o.components.filterMap id

def Fits (o : OpenRow) : Prop := o.components.length < 4 ∧ o.row ≤ maxAttributes

/-- From `o` to `next` the components are added in order: what was stored, and
then what is pending, is what was pending, and then they. -/
structure Advances (o : OpenRow) (values : List (Option Ref)) (next : OpenRow)
    (writes : List (Target × Ref)) : Prop where
  writes : writes ++ next.pending = o.pending ++ placements o.count values
  count : next.count = o.count + values.length
  fits : o.Fits → next.Fits

theorem Advances.refl (o : OpenRow) : o.Advances [] o [] :=
  ⟨by simp [placements], rfl, id⟩

theorem Advances.trans {o next last : OpenRow}
    {values others : List (Option Ref)} {before after : List (Target × Ref)}
    (first : o.Advances values next before)
    (second : next.Advances others last after) :
    o.Advances (values ++ others) last (before ++ after) := by
  refine ⟨?_, ?_, fun fits => second.fits (first.fits fits)⟩
  · rw [List.append_assoc, second.writes, ← List.append_assoc, first.writes,
      first.count, List.append_assoc, ← placements_append]
  · rw [second.count, first.count, List.length_append, Nat.add_assoc]

theorem advances_of_steps {o last : OpenRow} {values : List (Option Ref)}
    {writes : List (Target × Ref)}
    (steps : Emit.Steps
      (fun s v t writes => Advances s [v] t writes) o values last writes) :
    o.Advances values last writes := by
  induction steps with
  | nil o => exact .refl o
  | cons first _ rest => exact first.trans rest

theorem placed_eq_pending {o : OpenRow} (few : o.components.length ≤ 4) :
    o.placed = o.pending := by
  rw [pending, placements, List.zipIdx_eq_map_add, List.filterMap_map]
  refine List.filterMap_congr ?_
  intro entry member
  have inside := List.snd_lt_of_mem_zipIdx member
  have number : (4 * o.row + entry.2) / 4 = o.row ∧
      (4 * o.row + entry.2) % 4 = entry.2 := by omega
  simp only [Function.comp, place, number]

theorem mem_refs_of_placed {o : OpenRow} {write : Target × Ref}
    (member : write ∈ o.placed) : write.2 ∈ o.refs := by
  obtain ⟨entry, found, made⟩ := List.mem_filterMap.mp member
  obtain ⟨r, value, rfl⟩ := Option.map_eq_some_iff.mp made
  exact List.mem_filterMap.mpr
    ⟨entry.1, List.fst_mem_of_mem_zipIdx found, value⟩

private theorem flatten_of_singletons {writes : List (Target × Ref)}
    {parts : List (List (Target × Ref))}
    (singletons : writes.Forall₂ (fun write part => part = [write]) parts) :
    parts.flatten = writes := by
  induction singletons with
  | nil => rfl
  | cons here _ rest =>
      rw [List.flatten_cons, here, rest, List.singleton_append]

theorem write_does (o : OpenRow) (named : ∀ r ∈ o.refs, r ∈ known) :
    Emit.Does known o.write refs fun _ next writes =>
      o.row < maxAttributes ∧ next = { row := o.row + 1 } ∧
      writes = o.placed := by
  unfold write
  split
  next => exact .throw
  next room =>
    have stores :
        Emit.Does known
          (o.placed.forM fun write => liftM (store write.1 write.2))
            (fun _ => []) fun _ _ writes =>
          ∃ parts, o.placed.Forall₂ (fun write part => part = [write]) parts ∧
            writes = parts.flatten := by
      refine .forM _ ?_
      intro write member
      exact .store (named _ (mem_refs_of_placed member))
    refine .bind stores fun _ => ?_
    refine .bind (.lift (.report _)) fun _ => ?_
    refine .pure (by simp [refs]) ?_
    rintro _ _ ⟨rfl, _⟩ _ ⟨parts, singletons, rfl⟩
    refine ⟨Nat.lt_of_not_le room, rfl, ?_⟩
    rw [List.append_nil, List.append_nil, flatten_of_singletons singletons]

theorem add_does (o : OpenRow) (value? : Option Ref)
    (named : ∀ r ∈ o.refs, r ∈ known) (fresh : ∀ r ∈ value?, r ∈ known) :
    Emit.Does known (o.add value?) refs
      fun _ next writes => o.Advances [value?] next writes := by
  have both :
      ∀ r ∈ ({ o with components := o.components ++ [value?] } : OpenRow).refs,
      r ∈ known := by
    intro r member
    rw [refs, List.filterMap_append, List.mem_append] at member
    rcases member with old | new
    · exact named r old
    · exact fresh r (by simpa [eq_comm] using new)
  have added : placements (4 * o.row) (o.components ++ [value?]) =
      o.pending ++ placements o.count [value?] := placements_append _ _ _
  unfold add
  dsimp only
  split
  next full =>
    refine (write_does _ both).weaken (fun _ => id) (fun _ _ => id) ?_
    rintro _ _ _ ⟨room, rfl, rfl⟩
    refine ⟨?_, ?_, fun _ => ⟨by simp, room⟩⟩
    · rw [placed_eq_pending (Nat.le_of_eq full), ← added]
      exact List.append_nil _
    · simp only [List.length_append, List.length_singleton] at full
      simp only [count, List.length_nil, List.length_singleton]
      omega
  next notFull =>
    refine .pure both ?_
    intro _
    refine ⟨added, ?_, ?_⟩
    · simp only [count, List.length_append]
      omega
    · rintro ⟨few, rows⟩
      simp only [List.length_append, List.length_singleton] at notFull
      refine ⟨?_, rows⟩
      simp only [List.length_append, List.length_singleton]
      omega

theorem addAll_does (o : OpenRow) (values : List (Option Ref))
    (named : ∀ r ∈ o.refs, r ∈ known)
    (fresh : ∀ r ∈ values.filterMap id, r ∈ known) :
    Emit.Does known (values.foldlM add o) refs fun _ next writes =>
      o.Advances values next writes := by
  have steps : Emit.Does (o.refs ++ known) (values.foldlM add o) refs
      fun _ next writes =>
      Emit.Steps (fun s v t writes => Advances s [v] t writes) o values
        next writes := by
    refine .foldlM values ?_ o
    intro o value? member
    refine add_does o value? (by simp +contextual) ?_
    intro r given
    exact List.mem_append_right _
      (fresh r (List.mem_filterMap.mpr ⟨value?, member, given⟩))
  refine steps.weaken ?_ (fun _ _ => id) fun _ _ _ => advances_of_steps
  intro r member
  exact (List.mem_append.mp member).elim (named r) id

theorem close_does (o : OpenRow) (named : ∀ r ∈ o.refs, r ∈ known) :
    Emit.Does known o.close (fun _ => []) fun _ _ writes =>
      o.Fits → writes = o.pending ∧ o.count ≤ 4 * maxAttributes := by
  unfold close
  split
  next empty =>
    have nothing : o.components = [] := List.isEmpty_iff.mp empty
    refine .pure (by simp) ?_
    rintro _ ⟨_, rows⟩
    refine ⟨by simp [pending, nothing, placements], ?_⟩
    rw [count, nothing]
    exact Nat.mul_le_mul_left 4 rows
  next =>
    refine .bind (write_does o named) fun _ => ?_
    refine .pure (by simp) ?_
    rintro _ _ ⟨room, -, rfl⟩ ⟨few, _⟩
    refine ⟨by rw [List.append_nil, placed_eq_pending (Nat.le_of_lt few)], ?_⟩
    rw [count]
    omega

end OpenRow

structure Quad.Holds (g : Graph) (C : Call → Prop) (q : Quad)
    (vectors : Fin 4 → Fin 8 → UInt32) : Prop where
  x : g.Holds C q.x (vectors 0)
  y : g.Holds C q.y (vectors 1)
  z : g.Holds C q.z (vectors 2)
  w : g.Holds C q.w (vectors 3)

def turned (low high : Fin 4 → Fin 8 → UInt32) (c : Fin 4) (l : Fin 8) :
    UInt32 :=
  if inside : l.val < 4 then low ⟨l.val, inside⟩ (c.castLE (by decide))
  else high ⟨l.val - 4, by omega⟩ (c.castLE (by decide))

theorem turned_halves (vectors : Fin 8 → Fin 8 → UInt32) (c : Fin 4)
    (l : Fin 8) :
    turned (fun n => vectors ⟨0 + n.val, by omega⟩)
      (fun n => vectors ⟨4 + n.val, by omega⟩) c l =
      vectors l (c.castLE (by decide)) := by
  unfold turned
  split
  next => exact congrArg (vectors · _) (Fin.ext (Nat.zero_add _))
  next high =>
    exact congrArg (vectors · _)
      (Fin.ext (Nat.add_sub_cancel' (Nat.le_of_not_lt high)))

theorem transpose_does (low high : Quad) :
    Build.Does (low.toList ++ high.toList) (transpose low high) Quad.toList
      fun g q =>
        ∀ C x y, g.WellFormed → low.Holds g C x → high.Holds g C y →
          q.Holds g C (turned x y) := by
  unfold transpose
  dsimp only
  refine .bind (.value (by simp [Op.operands, Quad.toList])) fun m0 => ?_
  refine .bind (.value (by simp [Op.operands, Quad.toList])) fun m1 => ?_
  refine .bind (.value (by simp [Op.operands, Quad.toList])) fun m2 => ?_
  refine .bind (.value (by simp [Op.operands, Quad.toList])) fun m3 => ?_
  refine .bind (.value (by simp [Op.operands])) fun t0 => ?_
  refine .bind (.value (by simp [Op.operands])) fun t1 => ?_
  refine .bind (.value (by simp [Op.operands])) fun t2 => ?_
  refine .bind (.value (by simp [Op.operands])) fun t3 => ?_
  refine .bind (.value (by simp [Op.operands])) fun r0 => ?_
  refine .bind (.value (by simp [Op.operands])) fun r1 => ?_
  refine .bind (.value (by simp [Op.operands])) fun r2 => ?_
  refine .bind (.value (by simp [Op.operands])) fun r3 => ?_
  refine .pure (by simp [Quad.toList]) ?_
  intro g r3Node r2Node r1Node r0Node t3Node t2Node t1Node t0Node m3Node m2Node
    m1Node m0Node
    C x y formed lows highs
  have inserts : ∀ i, ((Selector.insertBlock 1).get i).toNat < 16 := by decide
  have interleaves :
      ∀ half : Fin 2, ∀ i, ((Selector.interleave half).get i).toNat < 16 := by
        decide
  have joins : ∀ half : Fin 2, ∀ i, ((Selector.joinHalves half).get i).toNat <
      16 := by decide
  have m0s := Graph.Holds.shuffle formed m0Node lows.x highs.x inserts
  have m1s := Graph.Holds.shuffle formed m1Node lows.y highs.y inserts
  have m2s := Graph.Holds.shuffle formed m2Node lows.z highs.z inserts
  have m3s := Graph.Holds.shuffle formed m3Node lows.w highs.w inserts
  have t0s := Graph.Holds.shuffle formed t0Node m0s m1s (interleaves 0)
  have t1s := Graph.Holds.shuffle formed t1Node m0s m1s (interleaves 1)
  have t2s := Graph.Holds.shuffle formed t2Node m2s m3s (interleaves 0)
  have t3s := Graph.Holds.shuffle formed t3Node m2s m3s (interleaves 1)
  have r0s := Graph.Holds.shuffle formed r0Node t0s t2s (joins 0)
  have r1s := Graph.Holds.shuffle formed r1Node t0s t2s (joins 1)
  have r2s := Graph.Holds.shuffle formed r2Node t1s t3s (joins 0)
  have r3s := Graph.Holds.shuffle formed r3Node t1s t3s (joins 1)
  refine ⟨r0s.ext ?_, r1s.ext ?_, r2s.ext ?_, r3s.ext ?_⟩
  all_goals exact Lanes.forall_lane.mpr ⟨rfl, rfl, rfl, rfl, rfl, rfl, rfl, rfl⟩

end VertexFetch.Fetch
