import VertexFetch.Proofs.Bounds
import VertexFetch.Proofs.Call.Padding
import VertexFetch.Proofs.Fetch.Memory
import VertexFetch.Proofs.Single.Half
import VertexFetch.Proofs.Support

namespace VertexFetch

/-- The vertex that a lane reads, which may be more than a word can count. -/
def Call.vertex (call : Call) (rate : Rate) (index : UInt32) : Nat :=
  match rate with
  | .perVertex => call.startVertex.toNat +
      ((index.toNat + call.baseVertex.toInt) % 2 ^ 32).toNat
  | .perInstance step => call.startInstance.toNat +
      if step = 0 then 0 else call.instanceId.toNat / step.toNat

namespace Word

theorem toNat_ofInt (i : Int) :
    ((UInt32.ofInt i).toNat : Int) = i % (2 ^ 32 : Nat) := by
  change (((i % 2 ^ 32).toNat % 2 ^ 32 : Nat) : Int) = _
  omega

theorem toInt_ofInt {i : Int} (low : -2 ^ 31 ≤ i) (high : i < 2 ^ 31) :
    (UInt32.ofInt i).toInt32.toInt = i := by
  rw [toInt_toInt32, toNat_ofInt, Int.emod_bmod]
  exact Int.bmod_eq_of_le (by omega) (by omega)

theorem toNat_toUInt32 (x : Int32) :
    (x.toUInt32.toNat : Int) = x.toInt % (2 ^ 32 : Nat) := by
  rw [← ofInt_toInt, toNat_ofInt]

end Word

namespace Format

/-- The word that a channel stands for, told by the number of the channel. -/
def Decodes (f : Format) (raw : Nat) (w : UInt32) : Prop :=
  match f.kind with
  | .unorm => ∃ number factor, Single.Nearest raw number ∧
      Single.Nearest (1 / (2 ^ f.channelBits - 1)) factor ∧
      Single.Nearest (Single.value number * Single.value factor) w
  | .snorm => ∃ number factor, Single.Nearest (f.signed raw) number ∧
      Single.Nearest (1 / (2 ^ (f.channelBits - 1) - 1)) factor ∧
      Single.Nearest (Single.value number * Single.value factor) w
  | .uint => w.toNat = raw
  | .sint => w.toInt32.toInt = f.signed raw
  | .uscaled => Single.Nearest raw w
  | .sscaled => Single.Nearest (f.signed raw) w
  | .float =>
      if f.channelBits = 16 then Single.Widens (UInt16.ofNat raw) w
      else w.toNat = raw

variable {f : Format} {raw : Nat} {w w' : UInt32}

theorem Decodes.unique (first : f.Decodes raw w) (second : f.Decodes raw w') :
    w = w' := by
  unfold Decodes at first second
  cases kind : f.kind with
  | unorm =>
      rw [kind] at first second
      obtain ⟨number, factor, exact, unit, product⟩ := first
      obtain ⟨number', factor', exact', unit', product'⟩ := second
      rw [exact.unique exact', unit.unique unit'] at product
      exact product.unique product'
  | snorm =>
      rw [kind] at first second
      obtain ⟨number, factor, exact, unit, product⟩ := first
      obtain ⟨number', factor', exact', unit', product'⟩ := second
      rw [exact.unique exact', unit.unique unit'] at product
      exact product.unique product'
  | uint =>
      rw [kind] at first second
      exact UInt32.toNat_inj.mp (first.trans second.symm)
  | sint =>
      rw [kind] at first second
      have back (w : UInt32) : UInt32.ofInt w.toInt32.toInt = w :=
        Word.ofInt_toInt w.toInt32
      rw [← back w, ← back w', first, second]
  | uscaled =>
      rw [kind] at first second
      exact Single.Nearest.unique first second
  | sscaled =>
      rw [kind] at first second
      exact Single.Nearest.unique first second
  | float =>
      rw [kind] at first second
      dsimp only at first second
      split at first
      next half =>
        rw [if_pos half] at second
        exact first.unique second
      next whole =>
        rw [if_neg whole] at second
        exact UInt32.toNat_inj.mp (first.trans second.symm)

theorem channelBits_of_fraction (fraction : f.kind = .unorm ∨ f.kind = .snorm) :
    f.channelBits = 8 ∨ f.channelBits = 16 := by
  have each : ∀ shape : Shape, ∀ kind ∈ shape.kinds,
      kind = .unorm ∨ kind = .snorm →
        shape.channelBits = 8 ∨ shape.channelBits = 16 := by
    intro shape
    cases shape <;> decide
  exact each f.shape f.kind f.listed fraction

theorem signed_bounds (f : Format) (raw : Nat) :
    -2 ^ (f.channelBits - 1) ≤ f.signed raw ∧
      f.signed raw < 2 ^ (f.channelBits - 1) := by
  have low := Int.le_bmod (x := raw) (Nat.two_pow_pos f.channelBits)
  have high := Int.bmod_lt (x := raw) (Nat.two_pow_pos f.channelBits)
  rw [signed]
  rcases Fetch.channelBits_cases f with bits | bits | bits
  all_goals
    rw [bits] at low high ⊢
    norm_num at low high ⊢
    omega

theorem exists_fraction {i : Int} (small : i.natAbs < 2 ^ 24) {n : Nat}
    (listed : n ∈ [127, 255, 32767, 65535]) {x unit : ℚ} (whole : x = i)
    (part : unit = 1 / n) :
    ∃ number factor, Single.Nearest x number ∧ Single.Nearest unit factor ∧
      Single.Nearest (Single.value number * Single.value factor)
        (Single.mul (Single.ofInt i) (Single.reciprocal n)) := by
  rw [whole, part]
  exact ⟨_, _, Single.nearest_ofInt i, Single.nearest_reciprocal listed,
    Single.nearest_fraction small listed⟩

theorem toNat_ofNat_channel (f : Format) {raw : Nat}
    (small : raw < 2 ^ f.channelBits) : (UInt32.ofNat raw).toNat = raw := by
  refine UInt32.toNat_ofNat_of_lt' (Nat.lt_of_lt_of_le small ?_)
  refine Nat.pow_le_pow_right (n := 2) (j := 32) (by decide) ?_
  rcases Fetch.channelBits_cases f with bits | bits | bits <;> omega

theorem decodes_decode (f : Format) {raw : Nat}
    (small : raw < 2 ^ f.channelBits) :
    f.Decodes raw (f.decode .gather raw) := by
  have signed := f.signed_bounds raw
  cases kind : f.kind with
  | unorm =>
      simp only [Decodes, decode, kind]
      rcases channelBits_of_fraction (.inl kind) with bits | bits
      all_goals
        rw [bits] at small ⊢
        exact exists_fraction (by omega) (by decide) (by norm_num) (by norm_num)
  | snorm =>
      simp only [Decodes, decode, kind]
      rcases channelBits_of_fraction (.inr kind) with bits | bits
      all_goals
        rw [bits] at signed ⊢
        norm_num at signed
        exact exists_fraction (by omega) (by decide) rfl
          (by norm_num [Strategy.signedUnit])
  | uint =>
      simp only [Decodes, decode, kind]
      exact f.toNat_ofNat_channel small
  | sint =>
      simp only [Decodes, decode, kind]
      have wide : (2 : Int) ^ (f.channelBits - 1) ≤ 2 ^ 31 := by
        rcases Fetch.channelBits_cases f with bits | bits | bits <;>
          rw [bits] <;> decide
      exact Word.toInt_ofInt (by omega) (by omega)
  | uscaled =>
      simp only [Decodes, decode, kind]
      exact Single.nearest_ofInt raw
  | sscaled =>
      simp only [Decodes, decode, kind]
      exact Single.nearest_ofInt _
  | float =>
      simp only [Decodes, decode, kind]
      split
      next => exact Single.widens_ofHalf _
      next => exact f.toNat_ofNat_channel small

theorem decodes_iff (small : raw < 2 ^ f.channelBits) :
    f.Decodes raw w ↔ w = f.decode .gather raw := by
  constructor
  · exact fun decodes => decodes.unique (f.decodes_decode small)
  · rintro rfl
    exact f.decodes_decode small

theorem channelAt_lt (f : Format) (c : Fin 4) (data : Array UInt8)
    (offset : Nat) : f.channelAt c data offset < 2 ^ f.channelBits := by
  rw [← wordAt_channel]
  refine Nat.lt_of_lt_of_eq (wordAt_lt _ _ _) ?_
  rcases Fetch.channelBits_cases f with bits | bits | bits <;> rw [bits]

end Format

/-- What a component of an attribute holds for a vertex: the channel in the
data, or zero where the data does not have the whole element. -/
def Attribute.Delivers (a : Attribute) (c : Fin 4) (data : Array UInt8)
    (pitch : UInt32) (vertex : Nat) (w : UInt32) : Prop :=
  let offset := vertex * pitch.toNat + a.offset.toNat
  if vertex < 2 ^ 32 ∧ offset + a.format.bytes ≤ data.size then
    a.format.Decodes (a.format.channelAt c data offset) w
  else w = 0

theorem Attribute.delivers_iff {a : Attribute} {c : Fin 4} {data : Array UInt8}
    {pitch : UInt32} {vertex : Nat} {w : UInt32} :
    a.Delivers c data pitch vertex w ↔ w = a.valueAt c data pitch vertex := by
  unfold Delivers valueAt
  dsimp only
  split
  next => exact Format.decodes_iff (a.format.channelAt_lt c data _)
  next => exact Iff.rfl

namespace Call

theorem current_padded (call : Call) (index : UInt32) (rate : Rate) :
    call.padded.view.current index rate = call.view.current index rate := by
  cases rate <;> simp only [View.current, argument_padded]

theorem start_padded (call : Call) (rate : Rate) :
    call.padded.view.start rate = call.view.start rate := by
  cases rate <;> simp only [View.start, argument_padded]

theorem start_add_current (call : Call) (rate : Rate) (index : UInt32) :
    (call.view.start rate).toNat + (call.view.current index rate).toNat =
      call.vertex rate index := by
  cases rate with
  | perVertex =>
      change call.startVertex.toNat +
        (index + call.baseVertex.toUInt32).toNat = call.startVertex.toNat + _
      have base := Word.toNat_toUInt32 call.baseVertex
      rw [UInt32.toNat_add]
      omega
  | perInstance step =>
      change _ + (if step = 0 then 0 else call.instanceId / step).toNat = _ + _
      rw [apply_ite UInt32.toNat, UInt32.toNat_div]
      rfl

end Call

namespace Layout

variable {l : Layout} {k : Kernel} {call : Call} {batch out : Batch}

/-- Gathers test all that they read, so that nothing but the indices has to be
there. -/
theorem ready_padded (gather : l.strategy = .gather) (call : Call) :
    l.Ready call.padded.view l.Needs (call.lastIndex + 32) := by
  refine ⟨fun _ => id, ?_, ?_⟩
  · unfold View.Readable
    split
    next =>
      rw [← call.lastIndex_padded]
      exact Nat.le_add_right_of_le call.padded.toNat_lastIndex_le
    next =>
      have few := Fetch.bytes_le l.width
      omega
  · intro linear
    rw [gather] at linear
    cases linear

theorem shows_padded (l : Layout) (call : Call) :
    call.padded.view.Shows l.Needs (call.lastIndex + 32) call.padded := by
  have binds : ∀ s, l.Needs s → call.padded.Binds s := by
    rintro s ⟨a, member, rfl, _⟩
    refine call.binds_padded (Nat.lt_of_le_of_lt ?_ (l.stream_lt a member))
    rw [UInt32.toNat_toUInt8]
    exact Nat.mod_le _ _
  refine (Call.Agree.refl _ _ _).shows ?_ binds binds
  rw [Call.padded, Array.size_append, Array.size_replicate]
  exact Nat.le_add_left _ _

/-- A gathering fetch that finds no fault leaves what it would if all streams
were bound and all bytes within the bounds were there. -/
theorem eq_putAll_of_fetch (compiled : l.compile = .ok k)
    (gather : l.strategy = .gather)
    (fetched : k.fetch call batch = (out, none)) :
    out = batch.putAll (l.outputs call.padded.view) := by
  have longer := call.extends_padded.fetch fetched
  rw [fetch_eq compiled (ready_padded gather call) (l.shows_padded call)]
    at longer
  exact (congrArg Prod.fst longer).symm

theorem mem_outputs_of_packed (gather : l.strategy = .gather) {v : View}
    {n : Nat} {a : Attribute} {c : Fin 4} (packed : l.packed[n]? = some (a, c))
    {x : Fin 8 → UInt32}
    (filled : v.component? a (v.indices l.width l.checked) c = some x) :
    (Fetch.place n, x) ∈ l.outputs v := by
  have found : (l.packed.map fun entry =>
      v.component? entry.1 (v.indices l.width l.checked) entry.2)[n]? =
      some (some x) := by
    rw [List.getElem?_map, packed, Option.map_some, filled]
  have placed := Fetch.mem_placements found 0
  rw [Nat.zero_add] at placed
  refine List.mem_cons_of_mem _ (List.mem_append_right _ ?_)
  rw [attributeOutputs, gather]
  exact placed

theorem gathered_padded {a : Attribute} {c : Fin 4}
    (channel : c.val < a.format.channels) {data : Array UInt8} {pitch : UInt32}
    (bound : call.stream a.stream.toUInt8 = .ok (.ofData data pitch))
    (small : data.size < 2 ^ 31) (index : UInt32) :
    call.padded.view.gathered a c index = a.valueAt c data pitch
      ((call.view.start a.rate).toNat +
        (call.view.current index a.rate).toNat) := by
  have padded := Call.stream_padded bound
  have fields := (Call.field_view padded).trans (Stream.field_padded _)
  rw [View.gathered_eq small fields ?_ channel, Call.start_padded,
    Call.current_padded]
  intro offset length inside
  rw [Call.word_view padded, Stream.padded, Stream.data_ofData,
    wordAt_append inside]

/-- Each packed component that a gathering fetch without a fault reads from
memory is what the data of its stream has for the vertex of the lane. -/
theorem fetch_gathers (compiled : l.compile = .ok k)
    (gather : l.strategy = .gather) (fetched : k.fetch call batch = (out, none))
    {n : Nat} {a : Attribute} {c : Fin 4} (packed : l.packed[n]? = some (a, c))
    (reads : a.Reads c) {data : Array UInt8} {pitch : UInt32}
    (bound : call.stream a.stream.toUInt8 = .ok (.ofData data pitch))
    (small : data.size < 2 ^ 31) :
    ∃ stored, out.read? (Fetch.place n) = some stored ∧
      ∀ lane, a.Delivers c data pitch
        (call.vertex a.rate (out.vertexId.get lane)) (stored.get lane) := by
  have ready := ready_padded gather call
  have filled : call.padded.view.component? a
        (call.padded.view.indices l.width l.checked) c =
      some fun i => call.padded.view.gathered a c
        (call.padded.view.indices l.width l.checked i) := by
    simp only [View.component?, reads.1, if_pos reads.2]
  rw [eq_putAll_of_fetch compiled gather fetched]
  refine ⟨_, Batch.read?_putAll (targets_outputs compiled ready)
    (mem_outputs_of_packed gather packed filled) batch, ?_⟩
  intro lane
  rw [Attribute.delivers_iff, vertexId_putAll compiled ready, Lanes.get_ofFn,
    Lanes.get_ofFn, gathered_padded reads.2 bound small,
    Call.start_add_current]

def slopes : Layout where
  width := .u8
  attributes := [
    { stream := 0, offset := 0, format := ⟨.r16g16, .snorm, by decide⟩ },
    { stream := 1, offset := 0, format := ⟨.r16, .float, by decide⟩,
      rate := .perInstance 2 }]
  length_le := by decide
  stream_lt := by decide

/-- The first lane is past the last vertex that can be counted and the third
past the data. Instance five reads element three. -/
def slopesCall : Call where
  streams := #[.ofData #[1, 2, 3, 4, 5, 6, 0xff, 0x7f, 1, 0x80] 6,
    .ofData #[0, 0, 0, 0, 0, 0, 0, 0xbe] 2]
  indices := #[0, 1, 2, 0, 0, 0, 0, 0]
  lastIndex := 8
  startVertex := 1
  baseVertex := -1
  startInstance := 1
  instanceId := 5

theorem fetch_gathers_slopes :
    ∃ k out slope half, slopes.compile = .ok k ∧
      k.fetch slopesCall (.filled 7) = (out, none) ∧
      out.read? (Fetch.place 1) = some slope ∧ slope.get 0 = 0 ∧
      slope.get 1 = 0xbf800000 ∧ slope.get 2 = 0 ∧
      out.read? (Fetch.place 4) = some half ∧ half.get 0 = 0xbfc00000 := by
  obtain ⟨k, compiled⟩ := exists_kernel (l := slopes) rfl
  have slopeBound : slopesCall.stream 0 =
      .ok (.ofData #[1, 2, 3, 4, 5, 6, 0xff, 0x7f, 1, 0x80] 6) := rfl
  have halfBound : slopesCall.stream 1 =
      .ok (.ofData #[0, 0, 0, 0, 0, 0, 0, 0xbe] 2) := rfl
  have binds : ∀ s, slopes.Needs s → slopesCall.Binds s := by
    rintro s ⟨a, member, rfl, _⟩
    rcases List.mem_pair.mp member with rfl | rfl
    · exact ⟨_, slopeBound, by decide⟩
    · exact ⟨_, halfBound, by decide⟩
  have fetched := fetch_eq_of_checked compiled rfl (by decide) binds (.filled 7)
  obtain ⟨slope, found, values⟩ := fetch_gathers compiled rfl fetched
    (n := 1) (c := 1) rfl ⟨rfl, by decide⟩ slopeBound (by decide)
  obtain ⟨half, found', values'⟩ := fetch_gathers compiled rfl fetched
    (n := 4) (c := 0) rfl ⟨rfl, by decide⟩ halfBound (by decide)
  simp only [Attribute.delivers_iff,
    vertexId_putAll compiled (ready_of_checked rfl), Lanes.get_ofFn]
    at values values'
  refine ⟨k, _, slope, half, compiled, fetched, found, ?_, ?_, ?_, found', ?_⟩
  · rw [values]
    decide
  · rw [values]
    decide
  · rw [values]
    decide
  · rw [values']
    decide

end Layout
end VertexFetch
