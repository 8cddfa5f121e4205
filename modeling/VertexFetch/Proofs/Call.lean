import VertexFetch.Proofs.Fetch.Indices

namespace VertexFetch

def wordAt (data : Array UInt8) (offset length : Nat) : UInt32 :=
  UInt32.ofNat
    (Word.littleEndian (data.extract offset (offset + length)).toList)

theorem readWord_eq_wordAt {data : Array UInt8} {offset length : Nat}
    (inside : offset + length ≤ data.size) (few : length ≤ 4) :
    readWord data offset length = .ok (wordAt data offset length) := by
  rw [readWord, if_neg (Nat.not_lt.mpr inside), if_neg (Nat.not_lt.mpr few),
    wordAt]

theorem length_extract_le (data : Array UInt8) (offset length : Nat) :
    (data.extract offset (offset + length)).toList.length ≤ length := by
  rw [Array.length_toList, Array.size_extract]
  omega

theorem toNat_wordAt (data : Array UInt8) (offset : Nat) {length : Nat}
    (few : length ≤ 4) : (wordAt data offset length).toNat =
      Word.littleEndian (data.extract offset (offset + length)).toList := by
  have bytes := length_extract_le data offset length
  refine UInt32.toNat_ofNat_of_lt'
    (Nat.lt_of_lt_of_le (Word.littleEndian_lt _) ?_)
  exact Nat.pow_le_pow_right (n := 2) (j := 32) (by decide) (by omega)

theorem wordAt_lt (data : Array UInt8) (offset length : Nat) :
    (wordAt data offset length).toNat < 2 ^ (8 * length) := by
  have bytes := length_extract_le data offset length
  refine Nat.lt_of_le_of_lt (Nat.mod_le _ _)
    (Nat.lt_of_lt_of_le (Word.littleEndian_lt _) ?_)
  exact Nat.pow_le_pow_right (by decide) (Nat.mul_le_mul_left 8 bytes)

theorem wordAt_slice (data : Array UInt8) {start offset length stop : Nat}
    (inside : start + offset + length ≤ stop) :
    wordAt (data.extract start stop) offset length =
      wordAt data (start + offset) length := by
  rw [wordAt, Array.extract_extract, ← Nat.add_assoc, Nat.min_eq_left inside,
    wordAt]

theorem wordAt_extract (data : Array UInt8) {offset length stop : Nat}
    (inside : offset + length ≤ stop) :
    wordAt (data.extract 0 stop) offset length = wordAt data offset length := by
  rw [wordAt_slice data (by omega), Nat.zero_add]

namespace Call

def bytes (call : Call) (s : UInt8) : Array UInt8 :=
  (call.streams[s.toNat]?.map Stream.data).getD #[]

def view (call : Call) : View where
  argument := call.argument
  field s f := (call.streams[s.toNat]?.map fun st => st.field f).getD 0
  word s := wordAt (call.bytes s)
  index w offset := wordAt call.indices offset w.bytes
  word_lt _ := wordAt_lt _
  lastIndex_le := by
    rw [argument, UInt32.toNat_ofNat_of_lt'
      (Nat.lt_of_le_of_lt (Nat.min_le_right _ _) (by decide))]
    exact Nat.min_le_right _ _

theorem stream_eq_ok {call : Call} {s : UInt8} {st : Stream} :
    call.stream s = .ok st ↔ call.streams[s.toNat]? = some st := by
  unfold stream
  cases call.streams[s.toNat]? with
  | none => simp
  | some found => simp

theorem field_view {call : Call} {s : UInt8} {st : Stream}
    (bound : call.stream s = .ok st) : call.view.field s = st.field := by
  funext f
  simp only [view, stream_eq_ok.mp bound, Option.map_some, Option.getD_some]

theorem word_view {call : Call} {s : UInt8} {st : Stream}
    (bound : call.stream s = .ok st) : call.view.word s = wordAt st.data := by
  simp only [view, bytes, stream_eq_ok.mp bound, Option.map_some,
    Option.getD_some]

theorem toNat_lastIndex (call : Call) :
    (call.view.argument .lastIndex).toNat = min call.lastIndex 0x7fffffff :=
  UInt32.toNat_ofNat_of_lt'
    (Nat.lt_of_le_of_lt (Nat.min_le_right _ _) (by decide))

theorem toNat_lastIndex_le (call : Call) :
    (call.view.argument .lastIndex).toNat ≤ call.lastIndex := by
  rw [toNat_lastIndex]
  exact Nat.min_le_left _ _

/-- Stream `s` is bound, and its bounds lie in its data. -/
def Binds (call : Call) (s : UInt8) : Prop :=
  ∃ st, call.stream s = .ok st ∧ st.size.toNat ≤ st.data.size

/-- The calls have the same numbers, the same bytes that may be read in the
given streams, and the same first `reach` bytes of indices. -/
structure Agree (streams : UInt8 → Prop) (reach : Nat) (call other : Call) :
    Prop where
  lastIndex : other.lastIndex = call.lastIndex
  startVertex : other.startVertex = call.startVertex
  baseVertex : other.baseVertex = call.baseVertex
  startInstance : other.startInstance = call.startInstance
  instanceId : other.instanceId = call.instanceId
  indices : other.indices.extract 0 reach = call.indices.extract 0 reach
  stream : ∀ s, streams s →
    ∀ st st', call.stream s = .ok st → other.stream s = .ok st' →
    st'.pitch = st.pitch ∧ st'.size = st.size ∧ st'.maxVertex = st.maxVertex ∧
      st'.partialSize = st.partialSize ∧
      st'.data.extract 0 st.size.toNat = st.data.extract 0 st.size.toNat

theorem Agree.refl (streams : UInt8 → Prop) (reach : Nat) (call : Call) :
    call.Agree streams reach call := by
  refine ⟨rfl, rfl, rfl, rfl, rfl, rfl, ?_⟩
  intro s _ st st' bound bound'
  cases Except.ok.inj (bound.symm.trans bound')
  exact ⟨rfl, rfl, rfl, rfl, rfl⟩

theorem Agree.shows {streams : UInt8 → Prop} {reach : Nat} {call other : Call}
    (agree : call.Agree streams reach other)
    (indices : reach ≤ other.indices.size)
    (binds : ∀ s, streams s → call.Binds s)
    (binds' : ∀ s, streams s → other.Binds s) :
    call.view.Shows streams reach other := by
  refine ⟨?_, ?_, ?_⟩
  · intro a
    change other.argument a = call.argument a
    cases a with
    | startVertex => exact agree.startVertex
    | baseVertex => exact congrArg Int32.toUInt32 agree.baseVertex
    | startInstance => exact agree.startInstance
    | instanceId => exact agree.instanceId
    | lastIndex => rw [argument, argument, agree.lastIndex]
  · intro s seen
    obtain ⟨st, bound, _⟩ := binds s seen
    obtain ⟨st', bound', fits⟩ := binds' s seen
    obtain ⟨pitch, size, maxVertex, partialSize, data⟩ :=
      agree.stream s seen st st' bound bound'
    rw [field_view bound]
    refine ⟨st', bound', ?_, ?_⟩
    · intro f
      cases f with
      | pitch => exact pitch
      | size => exact size
      | maxVertex => exact maxVertex
      | partialSize => exact partialSize
    · intro offset length inside few
      have inside : offset + length ≤ st.size.toNat := inside
      rw [size] at fits
      rw [readWord_eq_wordAt (Nat.le_trans inside fits) few,
        ← wordAt_extract _ inside, data, wordAt_extract _ inside,
        word_view bound]
  · intro w offset inside
    have few : w.bytes ≤ 4 := Fetch.bytes_le w
    rw [index, readWord_eq_wordAt (Nat.le_trans inside indices) few,
      ← wordAt_extract _ inside, agree.indices, wordAt_extract _ inside]
    rfl

end Call

end VertexFetch
