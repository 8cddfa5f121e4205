import VertexFetch.Proofs.Fetch.Gathering

namespace VertexFetch

namespace View

def element (v : View) (s : UInt8) (f : Format) (offset : UInt32) (may : Bool)
    (k : Fin 8) : UInt32 :=
  let channel := if low : k.val < 4 then (f.swizzle.get ⟨k.val, low⟩).toNat
    else k.val
  let bytes := f.channelBits / 8
  if may = true ∧ channel < f.channels then
    (Fetch.channelLoad f).extend
      (v.word s (offset.toNat + channel * bytes) bytes)
  else 0

def mayLoad (v : View) (a : Attribute) (checked : Bool) (index : UInt32) :
    Bool :=
  !checked || Fetch.indexedInside a (v.field a.stream.toUInt8) index
    (v.argument .startVertex)

def Covers (v : View) (a : Attribute) (checked : Bool)
    (index : Fin 8 → UInt32) : Prop :=
  ∀ i, v.mayLoad a checked (index i) = true →
    (Fetch.indexedOffset a (v.field a.stream.toUInt8) (index i)
      (v.argument .startVertex)).toNat + a.format.bytes ≤
      (v.field a.stream.toUInt8 .size).toNat

theorem covers_of_checked (v : View) (a : Attribute) (index : Fin 8 → UInt32) :
    v.Covers a true index :=
  fun _ may => Fetch.indexedInside_ends may

def loaded (v : View) (a : Attribute) (checked : Bool) (c : Fin 4)
    (index : UInt32) : UInt32 :=
  let s := a.stream.toUInt8
  let offset :=
    Fetch.indexedOffset a (v.field s) index (v.argument .startVertex)
  let bytes := a.format.channelBits / 8
  a.format.decode .linear
    (if v.mayLoad a checked index then
      (v.word s (offset.toNat + (a.format.swizzle.get c).toNat * bytes)
        bytes).toNat
    else 0)

def loadedComponent (v : View) (a : Attribute) (checked : Bool)
    (index : Fin 8 → UInt32) (c : Fin 4) (i : Fin 8) : UInt32 :=
  if c.val < a.format.channels then v.loaded a checked c (index i)
  else if c.val = 3 then Single.one
  else 0

def loadedRow (v : View) (slot : Nat) (a : Attribute) (checked : Bool)
    (index : Fin 8 → UInt32) : List (Target × (Fin 8 → UInt32)) :=
  (List.finRange 4).map fun c =>
    (.row (UInt8.ofNat slot) (UInt8.ofNat c.val),
      v.loadedComponent a checked index c)

end View

namespace Fetch

open Build

structure Window.Loads (w : Window (Option Ref)) (g : Graph) (f : Format)
    (v : View) (streams : UInt8 → Prop) (reach : Nat) (x : Fin 8 → UInt32)
    (may : Fin 8 → Bool) : Prop where
  seen : streams w.stream
  offsets : g.Holds (v.Shows streams reach) w.offsets x
  mask : ∀ mask ∈ w.mask, g.Holds (v.Shows streams reach) mask
    fun i => Word.ofBool (may i)
  all : w.mask = none → ∀ i, may i = true
  inside : ∀ i, may i = true →
    (x i).toNat + f.bytes ≤ (v.field w.stream .size).toNat

theorem channels_le (f : Format) : f.channels ≤ 4 := by
  have each : ∀ shape : Shape, shape.channels ≤ 4 := by
    intro shape
    cases shape <;> decide
  exact each f.shape

theorem channel_ends {f : Format} {k : Nat} (inside : k < f.channels) :
    k * (f.channelBits / 8) + f.channelBits / 8 ≤ f.bytes := by
  have whole : f.channels * (f.channelBits / 8) = f.bytes := by
    have each : ∀ shape : Shape,
        shape.channels * (shape.channelBits / 8) =
          shape.channels * shape.channelBits / 8 := by
      intro shape
      cases shape <;> decide
    exact each f.shape
  rw [← Nat.succ_mul, ← whole]
  exact Nat.mul_le_mul_right _ inside

theorem load_read {f : Format} {v : View} {s : UInt8} {st : Stream}
    {offset : Nat} (inside : offset + f.bytes ≤ (v.field s .size).toNat)
    (readable : ∀ offset length, offset + length ≤ (v.field s .size).toNat →
      length ≤ 4 →
      readWord st.data offset length = .ok (v.word s offset length)) :
    (channelLoad f).read st.data offset =
      .ok (Vector.ofFn fun k =>
        if k.val < f.channels then
          (channelLoad f).extend (v.word s
            (offset + k.val * (f.channelBits / 8)) (f.channelBits / 8))
        else 0) := by
  have few := channels_le f
  have bits := channelBits_cases f
  have channels : (channelLoad f).channels.toNat = f.channels :=
    (UInt8.toNat_ofNat' ..).trans (Nat.mod_eq_of_lt (by omega))
  have bytes : (channelLoad f).channelBytes = f.channelBits / 8 :=
    congrArg (· / 8)
      ((UInt8.toNat_ofNat' ..).trans (Nat.mod_eq_of_lt (by omega)))
  have reads : ∀ k < (channelLoad f).channels.toNat,
      readWord st.data (offset + k * (channelLoad f).channelBytes)
        (channelLoad f).channelBytes =
        .ok (v.word s (offset + k * (f.channelBits / 8))
          (f.channelBits / 8)) := by
    intro k below
    rw [channels] at below
    have ends := channel_ends below
    rw [bytes]
    exact readable _ _ (by omega) (by omega)
  rw [ChannelLoad.read_ok (by omega) reads, channels]

theorem get_swizzled (f : Format) (i : Fin 8) :
    ((Selector.swizzled f.swizzle).get i).toNat =
      if low : i.val < 4 then (f.swizzle.get ⟨i.val, low⟩).toNat
      else i.val := by
  have entry : (Selector.swizzled f.swizzle).get i =
      if low : i.val < 4 then f.swizzle.get ⟨i.val, low⟩
      else UInt8.ofNat i.val :=
    Vector.getElem_ofFn i.isLt
  rw [entry]
  split
  · rfl
  · rw [UInt8.toNat_ofNat']
    omega

theorem swizzled_lt (f : Format) (i : Fin 8) :
    ((Selector.swizzled f.swizzle).get i).toNat < 8 := by
  rw [get_swizzled]
  split
  next low =>
    have := Isolation.swizzle_lt f.shape ⟨i.val, low⟩
    exact Nat.lt_trans this (by decide)
  next => exact i.isLt

theorem loadChannels_does (f : Format) (s : UInt8) (offset valid : Ref) :
    Build.Does [offset, valid] (do
      let channels ← value (.load s (channelLoad f) offset valid)
      if f.swizzle = Shape.inOrder then pure channels
      else value (.permute channels (Selector.swizzled f.swizzle)))
      (fun r => [r]) fun g r =>
        ∀ (v : View) streams reach x may, g.WellFormed → streams s →
          g.Holds (v.Shows streams reach) offset (fun _ => x) →
          g.Holds (v.Shows streams reach) valid (fun _ => Word.ofBool may) →
          (may = true → x.toNat + f.bytes ≤ (v.field s .size).toNat) →
          g.Holds (v.Shows streams reach) r (v.element s f x may) := by
  refine .bind (.value (by simp [Op.operands])) fun channels => ?_
  have inMemory {g : Graph} {v : View} {streams reach x may}
      (formed : g.WellFormed)
      (loaded : g.op? channels = some (.load s (channelLoad f) offset valid))
      (seen : streams s)
      (places : g.Holds (v.Shows streams reach) offset fun _ => x)
      (tests : g.Holds (v.Shows streams reach) valid fun _ => Word.ofBool may)
      (inside : may = true → x.toNat + f.bytes ≤ (v.field s .size).toNat) :
      g.Holds (v.Shows streams reach) channels fun k =>
        if may = true ∧ k.val < f.channels then
          (channelLoad f).extend (v.word s
            (x.toNat + k.val * (f.channelBits / 8)) (f.channelBits / 8))
        else 0 := by
    refine Graph.Holds.load formed loaded places tests ?_ ?_
    · intro zero i
      rw [if_neg]
      rw [Word.ofBool_eq_zero.mp zero]
      simp
    · intro call shows set
      obtain ⟨st, bound, -, readable⟩ := shows.stream s seen
      have set : may = true := by
        cases may with
        | true => rfl
        | false => exact absurd rfl set
      refine ⟨st, bound, ?_⟩
      rw [load_read (inside set) readable]
      simp only [set, true_and]
  split
  next plain =>
    refine .pure (by simp) ?_
    intro g loaded v streams reach x may formed seen places tests inside
    refine (inMemory formed loaded seen places tests inside).ext ?_
    intro i
    have inOrder : ∀ k : Fin 4, (Shape.inOrder.get k).toNat = k.val := by decide
    have same :
        (if low : i.val < 4 then (f.swizzle.get ⟨i.val, low⟩).toNat
          else i.val) = i.val := by
      split
      · rw [plain, inOrder]
      · rfl
    simp only [View.element, same]
  next swizzled =>
    refine .weaken (.value fun _ => id) (by simp [Op.operands])
      (fun _ _ => id) ?_
    intro g r permuted loaded v streams reach x may formed seen places tests
      inside
    have channels := inMemory formed loaded seen places tests inside
    refine (Graph.Holds.permute formed permuted channels (swizzled_lt f)).ext ?_
    intro i
    simp only [View.element, get_swizzled]

theorem loadLane_does (a : Attribute) (w : Window (Option Ref)) (lane : UInt8)
    (inside : lane.toNat < 8) :
    Build.Does (w.offsets :: w.mask.toList) (loadLane a w lane) (fun r => [r])
      fun g r =>
        ∀ (v : View) streams reach x may, g.WellFormed →
          w.Loads g a.format v streams reach x may →
          g.Holds (v.Shows streams reach) r
            (v.element w.stream a.format (x ⟨lane.toNat, inside⟩)
              (may ⟨lane.toNat, inside⟩)) := by
  unfold loadLane
  dsimp only
  refine .bind (.value (by simp [Op.operands])) fun offset => ?_
  split
  next mask masked =>
    refine .bind (.value (by simp [Op.operands, masked])) fun valid => ?_
    refine (loadChannels_does a.format w.stream offset valid).weaken (by simp)
      (fun _ _ => id) ?_
    intro g r loads tested placed v streams reach x may formed window
    refine loads v streams reach _ _ formed window.seen
      (.extract formed placed window.offsets inside)
      (.extract formed tested (window.mask mask masked) inside)
        (window.inside _)
  next unmasked =>
    refine .bind (.value (by simp [Op.operands])) fun valid => ?_
    refine (loadChannels_does a.format w.stream offset valid).weaken (by simp)
      (fun _ _ => id) ?_
    intro g r loads tested placed v streams reach x may formed window
    refine loads v streams reach _ _ formed window.seen
      (.extract formed placed window.offsets inside) ?_ (window.inside _)
    rw [window.all unmasked]
    exact .word formed tested

theorem loadQuad_does (a : Attribute) (w : Window (Option Ref)) (lane : UInt8)
    (inside : lane.toNat + 3 < 8) :
    Build.Does (w.offsets :: w.mask.toList) (loadQuad a w lane) Quad.toList
      fun g q =>
        ∀ (v : View) streams reach x may, g.WellFormed →
          w.Loads g a.format v streams reach x may →
          q.Holds g (v.Shows streams reach) fun n =>
            v.element w.stream a.format (x ⟨lane.toNat + n.val, by omega⟩)
              (may ⟨lane.toNat + n.val, by omega⟩) := by
  have next (n : Fin 4) :
      (lane + UInt8.ofNat n.val).toNat = lane.toNat + n.val := by
    rw [UInt8.toNat_add, UInt8.toNat_ofNat']
    omega
  have load (n : Fin 4) :=
    loadLane_does a w (lane + UInt8.ofNat n.val) (by rw [next]; omega)
  simp only [next] at load
  unfold loadQuad
  refine .bind
    ((loadLane_does a w lane (by omega)).weaken (by simp) (fun _ _ => id)
    fun _ _ => id) fun r0 => ?_
  refine .bind ((load 1).weaken (by simp +contextual) (fun _ _ => id)
    fun _ _ => id) fun r1 => ?_
  refine .bind ((load 2).weaken (by simp +contextual) (fun _ _ => id)
    fun _ _ => id) fun r2 => ?_
  refine .bind ((load 3).weaken (by simp +contextual) (fun _ _ => id)
    fun _ _ => id) fun r3 => ?_
  refine .pure (by simp [Quad.toList]) ?_
  intro g fourth third second first v streams reach x may formed window
  exact ⟨first v streams reach x may formed window,
    second v streams reach x may formed window,
    third v streams reach x may formed window,
    fourth v streams reach x may formed window⟩

theorem loadedComponent_does (f : Format) (conversion : Conversion) (row : Ref)
    (c : Nat) :
    Build.Does [row] (loadedComponent f conversion row c) (fun r => [r])
      fun g r =>
        ∀ C x, g.WellFormed → conversion.Finite → g.Holds C row x →
          g.Holds C r fun i =>
            if c < f.channels then conversion.apply (x i)
            else if c = 3 then Single.one else 0 := by
  unfold loadedComponent
  split
  next inside =>
    refine (conversion_does conversion row).weaken (fun _ => id)
      (fun _ _ => id) ?_
    intro g r converts C x formed finite holds
    exact (converts C x formed finite holds).ext (by simp)
  next outside =>
    by_cases fourth : c = 3
    · refine .weaken (.value fun _ => id)
        (by simp [Component.absent, fourth, Op.operands]) (fun _ _ => id) ?_
      intro g r found C x formed _ _
      rw [Component.absent, if_pos fourth] at found
      exact (Graph.Holds.single formed found).ext (by simp [fourth])
    · refine .weaken (.value fun _ => id)
        (by simp [Component.absent, fourth, Op.operands]) (fun _ _ => id) ?_
      intro g r found C x formed _ _
      rw [Component.absent, if_neg fourth] at found
      exact (Graph.Holds.word formed found).ext (by simp [fourth])

theorem swizzle_lt_channels {f : Format} {c : Fin 4}
    (inside : c.val < f.channels) : (f.swizzle.get c).toNat < f.channels := by
  have each : ∀ shape : Shape, ∀ c : Fin 4, c.val < shape.channels →
      (shape.swizzle.get c).toNat < shape.channels := by
    intro shape
    cases shape <;> decide
  exact each f.shape c inside

theorem apply_element {v : View} {f : Format} {conversion : Conversion}
    {c : Fin 4} (made : Conversion.linear f.kind f.channelBits = .ok conversion)
    (inside : c.val < f.channels) (s : UInt8) (offset : UInt32) (may : Bool) :
    conversion.apply (v.element s f offset may (c.castLE (by decide))) =
      f.decode .linear (if may then (v.word s (offset.toNat +
        (f.swizzle.get c).toNat * (f.channelBits / 8))
        (f.channelBits / 8)).toNat else 0) := by
  have low : (c.castLE (by decide : 4 ≤ 8)).val < 4 := c.isLt
  have channel := swizzle_lt_channels inside
  have bits := channelBits_cases f
  have whole : 8 * (f.channelBits / 8) = f.channelBits := by omega
  cases may with
  | true =>
      have small :=
        v.word_lt s
          (offset.toNat + (f.swizzle.get c).toNat * (f.channelBits / 8))
            (f.channelBits / 8)
      rw [whole] at small
      simp only [View.element, dif_pos low, true_and, if_true]
      exact (congrArg conversion.apply (if_pos channel)).trans
        (linear_decodes made _ small).2
  | false =>
      have zero : (channelLoad f).extend 0 = 0 := by
        simp only [ChannelLoad.extend, Word.byte_zero, Word.half_zero]
        split
        · rfl
        · split
          · rfl
          · rfl
      have decoded := (linear_decodes made 0 (Nat.two_pow_pos _)).2
      rw [zero] at decoded
      simp only [View.element, Bool.false_eq_true, false_and, if_false]
      exact decoded

theorem storeRow_does (slot : Nat) (f : Format) (conversion : Conversion)
    (rows : Quad) :
    Emit.Does rows.toList
      (rows.toList.zipIdx.forM fun entry => liftM (do
        let v ← loadedComponent f conversion entry.1 entry.2
        store (.row (UInt8.ofNat slot) (UInt8.ofNat entry.2)) v))
      (fun _ => []) fun g _ writes =>
        writes.map Prod.fst = (List.range' (4 * slot) 4).map place ∧
        ∀ C x, g.WellFormed → conversion.Finite → rows.Holds g C x →
          Delivers g C writes ((List.finRange 4).map fun c =>
            (.row (UInt8.ofNat slot) (UInt8.ofNat c.val), fun i =>
              if c.val < f.channels then conversion.apply (x c i)
              else if c.val = 3 then Single.one else 0)) := by
  have stores :
      Emit.Does rows.toList
        (rows.toList.zipIdx.forM fun entry => liftM (do
          let v ← loadedComponent f conversion entry.1 entry.2
          store (.row (UInt8.ofNat slot) (UInt8.ofNat entry.2)) v))
        (fun _ => []) fun g _ writes =>
          ∃ parts, rows.toList.zipIdx.Forall₂ (fun entry part => ∃ r,
            part = [(.row (UInt8.ofNat slot) (UInt8.ofNat entry.2), r)] ∧
              ∀ C x, g.WellFormed → conversion.Finite → g.Holds C entry.1 x →
                g.Holds C r fun i =>
                  if entry.2 < f.channels then conversion.apply (x i)
                  else if entry.2 = 3 then Single.one else 0) parts ∧
            writes = parts.flatten := by
    refine .forM _ ?_
    intro entry member
    rw [Emit.liftM_bind]
    refine .bind
      (.lift ((loadedComponent_does f conversion entry.1 entry.2).weaken
        (by simp [List.fst_mem_of_mem_zipIdx member]) (fun _ _ => id)
          fun _ _ => id)) fun r => ?_
    refine (Emit.Does.store (by simp)).weaken (fun _ => id) (fun _ _ => id) ?_
    rintro g _ _ rfl _ ⟨rfl, holds⟩
    exact ⟨r, rfl, holds⟩
  refine stores.weaken (fun _ => id) (fun _ _ => id) ?_
  rintro g _ _ ⟨parts, each, rfl⟩
  obtain - | ⟨⟨r0, rfl, first⟩, - | ⟨⟨r1, rfl, second⟩, - | ⟨⟨r2, rfl, third⟩,
    - | ⟨⟨r3, rfl, fourth⟩, last⟩⟩⟩⟩ := each
  cases last
  refine ⟨?_, ?_⟩
  · have inRow (c : Fin 4) := (place_row slot c).symm
    exact congrArg₂ List.cons (inRow 0) (congrArg₂ List.cons (inRow 1)
      (congrArg₂ List.cons (inRow 2) (congrArg₂ List.cons (inRow 3) rfl)))
  intro C x formed finite holds
  exact .cons ⟨rfl, first C _ formed finite holds.x⟩
    (.cons ⟨rfl, second C _ formed finite holds.y⟩
    (.cons ⟨rfl, third C _ formed finite holds.z⟩
    (.cons ⟨rfl, fourth C _ formed finite holds.w⟩ .nil)))

theorem loadAttribute_does {known : List Ref} (slot : Nat) (a : Attribute)
    (indices : Ref) (checked : Bool) (named : indices ∈ known) :
    Emit.Does known (loadAttribute slot a indices checked) (fun _ => [])
      fun g _ writes =>
        writes.map Prod.fst = (List.range' (4 * slot) 4).map place ∧
        ∀ (v : View) streams reach index, g.WellFormed →
          streams a.stream.toUInt8 →
          g.Holds (v.Shows streams reach) indices index →
          v.Covers a checked index →
          Delivers g (v.Shows streams reach) writes
            (v.loadedRow slot a checked index) := by
  unfold loadAttribute
  refine .bindExcept fun conversion made => ?_
  refine .bind
    (.lift ((indexedWindow_does a indices checked).weaken (by simp [named])
      (fun _ _ => id) fun _ _ => id)) fun w => ?_
  refine .bind
    (.lift ((loadQuad_does a w 0 (by decide)).weaken (by simp +contextual)
      (fun _ _ => id) fun _ _ => id)) fun low => ?_
  refine .bind
    (.lift ((loadQuad_does a w 4 (by decide)).weaken (by simp +contextual)
      (fun _ _ => id) fun _ _ => id)) fun high => ?_
  refine .bind
    (.lift ((transpose_does low high).weaken (by simp +contextual [or_imp])
      (fun _ _ => id) fun _ _ => id)) fun rows => ?_
  refine (storeRow_does slot a.format conversion rows).weaken
    (by simp +contextual)
    (fun _ _ => id) ?_
  rintro g _ writes ⟨targets, stored⟩ _ ⟨rfl, turns⟩ _ ⟨rfl, highs⟩ _
    ⟨rfl, lows⟩ _ ⟨rfl, stream, masked, window⟩
  refine ⟨targets, ?_⟩
  intro v streams reach index formed seen indexed covers
  obtain ⟨_, offsets, mask⟩ := w
  obtain rfl := stream
  obtain ⟨places, masks⟩ := window v streams reach index formed seen indexed
  have loads : Window.Loads
      ⟨a.stream.toUInt8, offsets, mask⟩ g a.format v streams reach
        (fun i => indexedOffset a (v.field a.stream.toUInt8) (index i)
          (v.argument .startVertex))
      (fun i => v.mayLoad a checked (index i)) := by
    refine ⟨seen, places, ?_, ?_, covers⟩
    · rintro r rfl
      obtain rfl : true = checked := masked
      exact masks r rfl
    · rintro rfl i
      obtain rfl : false = checked := masked
      rfl
  have rowsHold := turns _ _ _ formed (lows v streams reach _ _ formed loads)
    (highs v streams reach _ _ formed loads)
  have delivered :=
    stored _ _ formed (linear_decodes made 0 (Nat.two_pow_pos _)).1 rowsHold
  refine Eq.mp (congrArg (Delivers _ _ _) (List.map_congr_left fun c _ => ?_))
    delivered
  refine congrArg (Prod.mk _) (funext fun i => ?_)
  rw [View.loadedComponent]
  by_cases inside : c.val < a.format.channels
  · rw [if_pos inside, if_pos inside, View.loaded, ← apply_element made inside]
    exact congrArg conversion.apply
      (turned_halves
        (fun i => v.element a.stream.toUInt8 a.format
          (indexedOffset a (v.field a.stream.toUInt8) (index i)
            (v.argument .startVertex))
      (v.mayLoad a checked (index i))) c i)
  · rw [if_neg inside, if_neg inside]

end Fetch
end VertexFetch
