import VertexFetch.Kernel
import VertexFetch.Proofs.Call

namespace VertexFetch

structure Call.Extends (call other : Call) : Prop where
  argument : ∀ a, other.argument a = call.argument a
  stream : ∀ s st, call.stream s = .ok st → ∃ st', other.stream s = .ok st' ∧
    (∀ f, st'.field f = st.field f) ∧
    ∀ offset length w, readWord st.data offset length = .ok w →
      readWord st'.data offset length = .ok w
  index : ∀ width offset w, call.index width offset = .ok w →
    other.index width offset = .ok w

theorem foldlM_mono {α β ε : Type} {f g : β → α → Except ε β} {as : List α}
    (each : ∀ b a b', f b a = .ok b' → g b a = .ok b') {b last : β}
    (folded : as.foldlM f b = .ok last) : as.foldlM g b = .ok last := by
  induction as generalizing b with
  | nil => exact folded
  | cons a as induction =>
      rw [List.foldlM_cons] at folded ⊢
      obtain ⟨b', here, rest⟩ := bind_eq_ok.mp folded
      exact bind_eq_ok.mpr ⟨b', each b a b' here, induction rest⟩

theorem Lanes.ofFnM_mono {ε : Type} {f g : Fin 8 → Except ε UInt32} {v : Lanes}
    (each : ∀ i w, f i = .ok w → g i = .ok w) (made : ofFnM f = .ok v) :
    ofFnM g = .ok v :=
  ofFnM_eq_ok.mpr fun i => each i _ (ofFnM_eq_ok.mp made i)

namespace Call.Extends

variable {call other : Call} (extends_ : call.Extends other)
include extends_

theorem eval {ρ : Type} {read : ρ → Except Fault Lanes} {op : Op ρ} {v : Lanes}
    (evaluated : op.eval call read = .ok v) : op.eval other read = .ok v := by
  cases op with
  | argument a =>
      rw [Op.eval, extends_.argument]
      exact evaluated
  | stream s f =>
      obtain ⟨st, bound, same⟩ := bind_eq_ok.mp evaluated
      obtain ⟨st', bound', fields, _⟩ := extends_.stream s st bound
      refine bind_eq_ok.mpr ⟨st', bound', ?_⟩
      rw [fields]
      exact same
  | indices w =>
      rw [Op.eval] at evaluated ⊢
      exact Lanes.ofFnM_mono (fun i => extends_.index w _) evaluated
  | indicesMasked w mask =>
      obtain ⟨m, masked, made⟩ := bind_eq_ok.mp evaluated
      refine bind_eq_ok.mpr ⟨m, masked, Lanes.ofFnM_mono ?_ made⟩
      intro i x found
      split at found
      next zero => rw [if_pos zero, found]
      next set =>
        rw [if_neg set]
        exact extends_.index w _ x found
  | index w offset valid =>
      obtain ⟨m, tested, made⟩ := bind_eq_ok.mp evaluated
      refine bind_eq_ok.mpr ⟨m, tested, ?_⟩
      split at made
      next zero => rw [if_pos zero, made]
      next set =>
        rw [if_neg set]
        obtain ⟨place, found, made⟩ := bind_eq_ok.mp made
        obtain ⟨x, here, made⟩ := bind_eq_ok.mp made
        exact bind_eq_ok.mpr ⟨place, found,
          bind_eq_ok.mpr ⟨x, extends_.index w _ x here, made⟩⟩
  | load s l offset valid =>
      obtain ⟨m, tested, made⟩ := bind_eq_ok.mp evaluated
      refine bind_eq_ok.mpr ⟨m, tested, ?_⟩
      split at made
      next zero => rw [if_pos zero, made]
      next set =>
        rw [if_neg set]
        obtain ⟨st, bound, made⟩ := bind_eq_ok.mp made
        obtain ⟨place, found, made⟩ := bind_eq_ok.mp made
        obtain ⟨st', bound', _, reads⟩ := extends_.stream s st bound
        refine bind_eq_ok.mpr
          ⟨st', bound', bind_eq_ok.mpr ⟨place, found, foldlM_mono ?_ made⟩⟩
        intro v k next stepped
        obtain ⟨raw, here, set⟩ := bind_eq_ok.mp stepped
        exact bind_eq_ok.mpr ⟨raw, reads _ _ raw here, set⟩
  | gather s bytes offsets mask =>
      obtain ⟨st, bound, made⟩ := bind_eq_ok.mp evaluated
      obtain ⟨place, found, made⟩ := bind_eq_ok.mp made
      obtain ⟨m, masked, made⟩ := bind_eq_ok.mp made
      obtain ⟨st', bound', _, reads⟩ := extends_.stream s st bound
      refine bind_eq_ok.mpr ⟨st', bound', bind_eq_ok.mpr ⟨place, found,
        bind_eq_ok.mpr ⟨m, masked, Lanes.ofFnM_mono ?_ made⟩⟩⟩
      intro i x here
      split at here
      next zero => rw [if_pos zero, here]
      next set =>
        rw [if_neg set]
        exact reads _ _ x here
  | laneNumbers => exact evaluated
  | single bits => exact evaluated
  | word w => exact evaluated
  | binary f a b => exact evaluated
  | round f a => exact evaluated
  | select c t f => exact evaluated
  | extract lane a => exact evaluated
  | insert lane a s => exact evaluated
  | shuffle a b s => exact evaluated
  | permute a s => exact evaluated
  | shuffleBytes a s => exact evaluated
  | widen k a => exact evaluated

theorem step {m next : Machine} {i : Instr}
    (stepped : m.step call i = .ok next) : m.step other i = .ok next := by
  cases i with
  | compute out op =>
      obtain ⟨v, evaluated, written⟩ := bind_eq_ok.mp stepped
      exact bind_eq_ok.mpr ⟨v, extends_.eval evaluated, written⟩
  | store target source => exact stepped

theorem run {m last : Machine} {instrs : List Instr}
    (ran : m.run call instrs = (last, none)) :
    m.run other instrs = (last, none) := by
  induction instrs generalizing m with
  | nil => exact ran
  | cons i rest induction =>
      rw [Machine.run] at ran ⊢
      cases stepped : m.step call i with
      | error fault => simp [stepped] at ran
      | ok next =>
          rw [extends_.step stepped]
          rw [stepped] at ran
          exact induction ran

theorem fetch {k : Kernel} {batch out : Batch}
    (fetched : k.fetch call batch = (out, none)) :
    k.fetch other batch = (out, none) := by
  unfold Kernel.fetch Code.run at fetched ⊢
  cases ran : (Machine.start k.code.registers batch).run call k.code.instrs with
  | mk last fault =>
      rw [ran] at fetched
      cases fetched
      rw [extends_.run ran]

end Call.Extends

theorem wordAt_append {data : Array UInt8} {offset length : Nat}
    (inside : offset + length ≤ data.size) (more : Array UInt8) :
    wordAt (data ++ more) offset length = wordAt data offset length := by
  have whole : (data ++ more).extract 0 data.size = data := by simp
  rw [← wordAt_extract _ inside, whole]

theorem readWord_append {data : Array UInt8} {offset length : Nat} {w : UInt32}
    (read : readWord data offset length = .ok w) (more : Array UInt8) :
    readWord (data ++ more) offset length = .ok w := by
  have inside : ¬ data.size < offset + length := by
    intro outside
    rw [readWord, if_pos outside] at read
    cases read
  have few : ¬ 4 < length := by
    intro many
    rw [readWord, if_neg inside, if_pos many] at read
    cases read
  have longer : offset + length ≤ (data ++ more).size := by
    rw [Array.size_append]
    omega
  rw [readWord_eq_wordAt (by omega) (by omega)] at read
  rw [readWord_eq_wordAt longer (by omega),
    wordAt_append (Nat.le_of_not_lt inside), read]

/-- The stream with bytes for all that its size says. -/
def Stream.padded (st : Stream) : Stream :=
  { st with data := st.data ++ Array.replicate st.size.toNat 0 }

theorem Stream.field_padded (st : Stream) : st.padded.field = st.field := by
  funext f
  cases f <;> rfl

namespace Call

/-- The call with all streams bound, and bytes for all that may be read. -/
def padded (call : Call) : Call :=
  { call with
    streams := call.streams.map Stream.padded ++
      Array.replicate maxStreams ⟨#[], 0, 0, 0, 0⟩
    indices := call.indices ++ Array.replicate (call.lastIndex + 32) 0 }

theorem lastIndex_padded (call : Call) :
    call.padded.lastIndex = call.lastIndex := by
  rw [padded]

theorem stream_padded {call : Call} {s : UInt8} {st : Stream}
    (bound : call.stream s = .ok st) :
    call.padded.stream s = .ok st.padded := by
  rw [stream_eq_ok] at bound ⊢
  have inside := (Array.getElem?_eq_some_iff.mp bound).1
  rw [padded, Array.getElem?_append_left (by rwa [Array.size_map]),
    Array.getElem?_map, bound]
  rfl

theorem extends_padded (call : Call) : call.Extends call.padded := by
  refine ⟨?_, ?_, ?_⟩
  · intro a
    cases a <;> simp only [argument, padded]
  · intro s st bound
    refine ⟨st.padded, stream_padded bound, ?_, ?_⟩
    · intro f
      rw [st.field_padded]
    · intro offset length w read
      rw [Stream.padded]
      exact readWord_append read _
  · intro width offset w read
    rw [index, padded]
    exact readWord_append read _

theorem argument_padded (call : Call) :
    call.padded.view.argument = call.view.argument :=
  funext call.extends_padded.argument

theorem binds_padded (call : Call) {s : UInt8} (few : s.toNat < maxStreams) :
    call.padded.Binds s := by
  cases bound : call.stream s with
  | ok st =>
      refine ⟨st.padded, stream_padded bound, ?_⟩
      simp [Stream.padded]
  | error fault =>
      have outside : call.streams.size ≤ s.toNat := by
        refine Nat.le_of_not_lt fun inside => ?_
        rw [stream_eq_ok.mpr (Array.getElem?_eq_getElem inside)] at bound
        cases bound
      refine ⟨⟨#[], 0, 0, 0, 0⟩, stream_eq_ok.mpr ?_, Nat.le_refl 0⟩
      rw [padded, Array.getElem?_append_right (by rwa [Array.size_map]),
        Array.size_map, Array.getElem?_replicate, if_pos (by omega)]

end Call
end VertexFetch
