import VertexFetch.Fetch.Attributes
import VertexFetch.Proofs.Fetch.Decode
import VertexFetch.Proofs.Fetch.Rows
import VertexFetch.Proofs.Fetch.Window

namespace VertexFetch

namespace Attribute

def Reads (a : Attribute) (c : Fin 4) : Prop :=
  a.sources.get c = .memory ∧ c.val < a.format.channels

theorem mem_packed {a : Attribute} {c : Fin 4} :
    c ∈ a.packed ↔ a.packing.contains c.val = true := by
  simp [packed]

end Attribute

namespace View

def gatheredWord (v : View) (a : Attribute) (c : Fin 4) (index : UInt32) :
    UInt32 :=
  let s := a.stream.toUInt8
  let current := v.current index a.rate
  let group := 4 * a.format.group c
  if Fetch.steppedInside a (v.field s) current (v.start a.rate) then
    v.word s
      ((Fetch.steppedOffset a (v.field s) current (v.start a.rate)).toNat +
        group) (min (a.format.bytes - group) 4)
  else 0

def gathered (v : View) (a : Attribute) (c : Fin 4) (index : UInt32) : UInt32 :=
  a.format.decode .gather (a.format.channelIn c (v.gatheredWord a c index))

/-- What a packed component is filled with, given the indices. -/
def component? (v : View) (a : Attribute) (index : Fin 8 → UInt32) (c : Fin 4) :
    Option (Fin 8 → UInt32) :=
  match a.sources.get c with
  | .skip => none
  | .zero => some fun _ => 0
  | .oneFloat => some fun _ => Single.one
  | .oneInt => some fun _ => 1
  | .memory => some fun i =>
      if c.val < a.format.channels then v.gathered a c (index i)
      else if c.val = 3 then Single.one
      else 0

end View

namespace Fetch

open Build

theorem group_lt_bytes {f : Format} {c : Fin 4} (inside : c.val < f.channels) :
    4 * f.group c < f.bytes := by
  have each : ∀ shape : Shape, ∀ c : Fin 4, c.val < shape.channels →
      4 * ((shape.swizzle.get c).toNat * shape.channelBits / 32) <
        shape.channels * shape.channelBits / 8 := by
    intro shape
    cases shape <;> decide
  exact each f.shape c inside

theorem gatherGroup_does (w : Window Ref) (bytes group : Nat) :
    Build.Does [w.offsets, w.mask] (gatherGroup w bytes group) (fun r => [r])
      fun g r =>
        ∀ (v : View) streams reach x (y : Fin 8 → Bool), g.WellFormed →
          streams w.stream →
          g.Holds (v.Shows streams reach) w.offsets x →
          g.Holds (v.Shows streams reach) w.mask (fun i => Word.ofBool (y i)) →
          (∀ i, y i = true →
            (x i).toNat + bytes ≤ (v.field w.stream .size).toNat) →
          4 * group < bytes →
          g.Holds (v.Shows streams reach) r fun i =>
            if y i then v.word w.stream ((x i).toNat + 4 * group)
              (min (bytes - 4 * group) 4)
            else 0 := by
  unfold gatherGroup
  refine .bind (.value (by simp [Op.operands])) fun step => ?_
  refine .bind (.value (by simp [Op.operands])) fun offsets => ?_
  refine .weaken (.value fun _ => id) (by simp [Op.operands]) (fun _ _ => id) ?_
  intro g r gathered added stepNode v streams reach x y formed seen begins masks
    inside started
  have places :=
    Graph.Holds.binary formed added begins (.word formed stepNode) (by simp)
  refine Graph.Holds.gather formed gathered places masks ?_ ?_
  · intro i zero
    rw [if_neg (by rw [Word.ofBool_eq_zero.mp zero]; decide)]
  · intro call shows
    obtain ⟨st, bound, -, readable⟩ := shows.stream w.stream seen
    refine ⟨st, bound, ?_⟩
    intro i set
    have may : y i = true := by
      cases test : y i with
      | true => rfl
      | false => exact absurd (by rw [test]; rfl) set
    have ends := inside i may
    have size := (v.field w.stream .size).toNat_lt
    have offset : (x i + UInt32.ofNat (4 * group)).toNat =
        (x i).toNat + 4 * group := by
      rw [UInt32.toNat_add, UInt32.toNat_ofNat']
      omega
    have length : (UInt8.ofNat (min (bytes - 4 * group) 4)).toNat =
        min (bytes - 4 * group) 4 := by
      rw [UInt8.toNat_ofNat']
      omega
    rw [if_pos may, length]
    exact (congrArg (readWord st.data · _) offset).trans
      (readable _ _ (by omega) (Nat.min_le_right _ _))

theorem isolation_does (isolation : Isolation) (r : Ref) :
    Build.Does [r] (isolation.build r) (fun r => [r]) fun g isolated =>
      ∀ C x, g.WellFormed → isolation.Fits → g.Holds C r x →
        g.Holds C isolated (isolation.apply (Vector.ofFn x)).get := by
  cases isolation with
  | whole =>
      refine .pure (by simp) ?_
      intro g C x _ _ holds
      exact holds.ext fun i => (Lanes.get_ofFn x i).symm
  | cleared bytes =>
      refine .weaken (.value fun _ => id) (by simp [Op.operands])
        (fun _ _ => id) ?_
      intro g isolated found C x formed _ holds
      exact .shuffleBytes formed found holds
  | widened bytes lanes widening =>
      refine .bind (.value (by simp [Op.operands])) fun grouped => ?_
      refine .bind (.value (by simp [Op.operands])) fun picked => ?_
      refine .weaken (.value fun _ => id) (by simp [Op.operands])
        (fun _ _ => id) ?_
      intro g isolated widenedNode pickedNode groupedNode C x formed fits holds
      have groups := Graph.Holds.shuffleBytes formed groupedNode holds
      have picks := Graph.Holds.permute formed pickedNode groups fits
      have wide := Graph.Holds.widen formed widenedNode picks
      refine wide.ext fun i => ?_
      refine congrArg (fun picked => (Lanes.widen picked widening).get i)
        (Lanes.ext_get ?_)
      intro j
      rw [Lanes.get_ofFn, Lanes.get_permute, dif_pos (fits j)]

theorem conversion_does (conversion : Conversion) (r : Ref) :
    Build.Does [r] (conversion.build r) (fun r => [r]) fun g converted =>
      ∀ C x, g.WellFormed → conversion.Finite → g.Holds C r x →
        g.Holds C converted fun i => conversion.apply (x i) := by
  cases conversion with
  | keep =>
      refine .pure (by simp) ?_
      intro g C x _ _ holds
      exact holds
  | round f =>
      refine .weaken (.value fun _ => id) (by simp [Op.operands])
        (fun _ _ => id) ?_
      intro g converted found C x formed _ holds
      exact .round formed found holds
  | scale f factor =>
      refine .bind (.value (by simp [Op.operands])) fun rounded => ?_
      refine .bind (.value (by simp [Op.operands])) fun literal => ?_
      refine .weaken (.value fun _ => id) (by simp [Op.operands])
        (fun _ _ => id) ?_
      intro g converted product literalNode roundedNode C x formed finite holds
      have numbers := Graph.Holds.round formed roundedNode holds
      refine Graph.Holds.product formed product numbers
        (.single formed literalNode) ?_
      intro i
      refine Single.isNaN_mul ?_ (finite f factor rfl)
      cases f with
      | signed => exact Single.isNaN_ofInt _
      | unsigned => exact Single.isNaN_ofInt _

theorem component_cases {a : Attribute} {c : Fin 4} {component : Component}
    (made : a.component c = .ok component) :
    (component = .skip ∧ ¬ a.Reads c ∧
      ∀ v index, View.component? v a index c = none) ∨
      (∃ w, (component = .constant (.word w) ∨
        component = .constant (.single w)) ∧ ¬ a.Reads c ∧
        ∀ v index, View.component? v a index c = some fun _ => w) ∨
      ∃ channel, component = .channel channel ∧ a.Reads c ∧
        a.format.channel c = .ok channel := by
  unfold Attribute.component at made
  cases source : a.sources.get c with
  | memory =>
      rw [source] at made
      by_cases inside : c.val < a.format.channels
      · rw [if_pos inside] at made
        obtain ⟨channel, found, same⟩ := bind_eq_ok.mp made
        cases same
        exact .inr (.inr ⟨channel, rfl, ⟨source, inside⟩, found⟩)
      · rw [if_neg inside] at made
        cases made
        refine .inr (.inl ?_)
        by_cases fourth : c.val = 3
        · refine ⟨Single.one, .inr ?_, fun reads => inside reads.2, ?_⟩
          · rw [Component.absent, if_pos fourth]
          · intro v index
            simp only [View.component?, source, if_neg inside, if_pos fourth]
        · refine ⟨0, .inl ?_, fun reads => inside reads.2, ?_⟩
          · rw [Component.absent, if_neg fourth]
          · intro v index
            simp only [View.component?, source, if_neg inside, if_neg fourth]
  | skip =>
      rw [source] at made
      cases made
      refine .inl ⟨rfl, by simp [Attribute.Reads, source], ?_⟩
      simp [View.component?, source]
  | zero =>
      rw [source] at made
      cases made
      refine .inr (.inl ⟨0, .inl rfl, by simp [Attribute.Reads, source], ?_⟩)
      simp [View.component?, source]
  | oneFloat =>
      rw [source] at made
      cases made
      refine .inr
        (.inl ⟨Single.one, .inr rfl, by simp [Attribute.Reads, source], ?_⟩)
      simp [View.component?, source]
  | oneInt =>
      rw [source] at made
      cases made
      refine .inr (.inl ⟨1, .inl rfl, by simp [Attribute.Reads, source], ?_⟩)
      simp [View.component?, source]

structure Window.Steps (w : Window Ref) (g : Graph) (a : Attribute) (v : View)
    (C : Call → Prop) (index : Fin 8 → UInt32) : Prop where
  stream : w.stream = a.stream.toUInt8
  offsets : g.Holds C w.offsets fun i =>
    steppedOffset a (v.field a.stream.toUInt8) (v.current (index i) a.rate)
      (v.start a.rate)
  mask : g.Holds C w.mask fun i => Word.ofBool
    (steppedInside a (v.field a.stream.toUInt8) (v.current (index i) a.rate)
      (v.start a.rate))

def Fills (g : Graph) (a : Attribute) (v : View) (C : Call → Prop)
    (index : Fin 8 → UInt32) (c : Fin 4) (value? : Option Ref) : Prop :=
  Option.Rel (fun x r => g.Holds C r x) (v.component? a index c) value?

theorem gatherComponent_does (a : Attribute) (w : Window Ref) {c : Fin 4}
    {component : Component} (made : a.component c = .ok component) :
    Build.Does [w.offsets, w.mask]
      (gatherComponent w a.format.bytes component) Option.toList
      fun g value? => ∀ (v : View) streams reach index, g.WellFormed →
        (a.Reads c → streams a.stream.toUInt8 ∧
          w.Steps g a v (v.Shows streams reach) index) →
        Fills g a v (v.Shows streams reach) index c value? := by
  obtain ⟨rfl, _, skipped⟩ | ⟨literal, same, _, filled⟩
    | ⟨channel, rfl, reads, found⟩ :=
    component_cases made
  · refine .pure (by simp) ?_
    intro g v streams reach index _ _
    rw [Fills, skipped]
    exact .none
  · rcases same with rfl | rfl
    · refine .map (.value (by simp [Op.operands])) (by simp) ?_
      intro g r found v streams reach index formed _
      rw [Fills, filled]
      exact .some (.word formed found)
    · refine .map (.value (by simp [Op.operands])) (by simp) ?_
      intro g r found v streams reach index formed _
      rw [Fills, filled]
      exact .some (.single formed found)
  · obtain ⟨group, fits, finite, decodes⟩ := Format.channel_decodes found
    refine .bind (gatherGroup_does w a.format.bytes channel.group)
      fun words => ?_
    refine .bind
      ((isolation_does channel.isolation words).weaken (by simp) (fun _ _ => id)
      fun _ _ => id) fun isolated => ?_
    refine .map
      ((conversion_does channel.conversion isolated).weaken (by simp)
        (fun _ _ => id)
      fun _ _ => id) (by simp) ?_
    intro g converted converts isolates groups v streams reach index formed
      window
    obtain ⟨seen, stream, offsets, mask⟩ := window reads
    rw [group, stream] at groups
    have read := groups v streams reach _ _ formed seen offsets mask
      (fun i inside => steppedInside_ends inside) (group_lt_bytes reads.2)
    have values := converts _ _ formed finite (isolates _ _ formed fits read)
    rw [Fills, View.component?, reads.1]
    refine .some (values.ext ?_)
    intro i
    rw [decodes, Lanes.get_ofFn, if_pos reads.2]
    rfl

theorem forall₂_of_mapM {α β ε : Type} {f : α → Except ε β} {as : List α}
    {bs : List β} (made : as.mapM f = .ok bs) :
    as.Forall₂ (fun a b => f a = .ok b) bs := by
  induction as generalizing bs with
  | nil =>
      rw [List.mapM_nil] at made
      cases made
      exact .nil
  | cons a as induction =>
      rw [List.mapM_cons] at made
      obtain ⟨b, here, made⟩ := bind_eq_ok.mp made
      obtain ⟨rest, there, made⟩ := bind_eq_ok.mp made
      cases made
      exact .cons here (induction there)

def GathersAttribute (g : Graph) (a : Attribute) (indices : Ref)
    (values : List (Option Ref)) : Prop :=
  ∀ (v : View) streams reach index, g.WellFormed →
    (∀ c ∈ a.packed, a.Reads c → streams a.stream.toUInt8) →
    g.Holds (v.Shows streams reach) indices index →
    a.packed.Forall₂ (Fills g a v (v.Shows streams reach) index) values

theorem gatherComponents_does (a : Attribute) (indices : Ref)
    {components : List Component} (made : a.components = .ok components) :
    Build.Does [indices] (gatherComponents a components indices)
      (fun values => values.filterMap id)
        fun g values => GathersAttribute g a indices values := by
  have each := forall₂_of_mapM made
  unfold gatherComponents
  refine .bind (steps_does a.rate indices (by simp)) fun steps => ?_
  obtain ⟨current, start⟩ := steps
  refine .bind
    ((steppedWindow_does a current start).weaken (by simp) (fun _ _ => id)
    fun _ _ => id) fun w => ?_
  have values : Build.Does [w.offsets, w.mask]
      (components.mapM (gatherComponent w a.format.bytes))
        (fun values => values.flatMap Option.toList) fun g values =>
        components.Forall₂
          (fun component value? => ∀ c, a.component c = .ok component →
          ∀ (v : View) streams reach index, g.WellFormed →
            (a.Reads c → streams a.stream.toUInt8 ∧
              w.Steps g a v (v.Shows streams reach) index) →
            Fills g a v (v.Shows streams reach) index c value?) values := by
    refine .mapM components ?_
    intro component member
    obtain ⟨i, rfl⟩ := List.mem_iff_get.mp member
    obtain ⟨length, made⟩ := List.forall₂_iff_get.mp each
    have inside := Nat.lt_of_lt_of_eq i.isLt length.symm
    exact .all ⟨_, made i inside i.isLt⟩ fun c made =>
      gatherComponent_does a w made
  refine values.weaken (by simp +contextual) (by simp) ?_
  intro g values filled windowed stepped v streams reach index formed seen
    indexed
  obtain ⟨currents, starts⟩ := stepped v streams reach index formed indexed
  have steps (seen : streams a.stream.toUInt8) :
      w.Steps g a v (v.Shows streams reach) index := by
    obtain ⟨offsets, mask⟩ :=
      windowed.2 _ _ _ _ formed (fun _ shows => shows.bound seen)
      currents starts
    exact ⟨windowed.1, offsets, mask⟩
  obtain ⟨length, made⟩ := List.forall₂_iff_get.mp each
  obtain ⟨length', filled⟩ := List.forall₂_iff_get.mp filled
  refine List.forall₂_iff_get.mpr ⟨length.trans length', ?_⟩
  intro i inside inside'
  refine filled i (length ▸ inside) inside' _
    (made i inside (length ▸ inside)) v streams reach index formed ?_
  intro reads
  have bound := seen _ (List.get_mem _ _) reads
  exact ⟨bound, steps bound⟩

theorem gatherAttribute_does {known : List Ref} (o : OpenRow) (a : Attribute)
    (indices : Ref) (named : indices ∈ known) :
    Emit.Does (o.refs ++ known) (gatherAttribute o a indices) OpenRow.refs
      fun g next writes =>
        ∃ values, GathersAttribute g a indices values ∧
          o.Advances values next writes := by
  unfold gatherAttribute
  refine .bindExcept fun components made => ?_
  refine .bind
    (.lift ((gatherComponents_does a indices made).weaken (by simp [named])
      (fun _ _ => id) fun _ _ => id)) fun values => ?_
  refine (OpenRow.addAll_does o values (by simp +contextual)
    (by simp +contextual)).weaken (fun _ => id) (fun _ _ => id) ?_
  rintro g next writes advances _ ⟨rfl, filled⟩
  exact ⟨values, filled, advances⟩

end Fetch
end VertexFetch
