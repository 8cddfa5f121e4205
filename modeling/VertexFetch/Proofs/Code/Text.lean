import Mathlib.Data.List.Nodup
import VertexFetch.Proofs.Code.Words
import VertexFetch.Proofs.Pass.Merging

namespace VertexFetch

open Text

namespace Instr

variable {s t : List Char} {vs ws : List String} {rs rs' : List Nat}

theorem follows_registerList (rs : List Nat) :
    Follows (· != ' ') (registerList rs).toList := by
  cases rs with
  | nil => simp [registerList, Follows]
  | cons r rs =>
      rw [registerList, String.toList_append]
      · exact follows_cons rfl
      · simp

theorem registerList_inj (length : rs.length = rs'.length)
    (same : registerList rs = registerList rs') : rs = rs' := by
  have word (r : Nat) : Word ("r" ++ toString r) :=
    .append (by decide) (word_repr r)
  have name (r r' : Nat) (same : "r" ++ toString r = "r" ++ toString r') :
      r = r' :=
    Nat.repr_inj.mp ((String.append_right_inj "r").mp same)
  cases rs with
  | nil => exact (List.length_eq_zero_iff.mp length.symm).symm
  | cons r rs =>
      obtain ⟨r', rs', rfl⟩ := List.exists_cons_of_length_eq_add_one length.symm
      exact joined_map_inj word name length
        ((String.append_right_inj " ").mp same)

theorem toList_spaced_cons (w : String) (ws : List String) (s : List Char) :
    (spaced (w :: ws)).toList ++ s =
      ' ' :: (w.toList ++ ((spaced ws).toList ++ s)) := by
  simp [spaced]

theorem follows_spaced (after : Follows (· != ' ') s) (ws : List String) :
    Follows (· != ' ') ((spaced ws).toList ++ s) := by
  cases ws with
  | nil => exact after
  | cons w ws =>
      rw [toList_spaced_cons]
      exact follows_cons rfl

theorem spaced_append_inj (length : vs.length = ws.length)
    (items : ∀ v ∈ vs, Item v) (items' : ∀ w ∈ ws, Item w)
    (after : Follows (· != ' ') s) (after' : Follows (· != ' ') t)
    (same : (spaced vs).toList ++ s = (spaced ws).toList ++ t) :
    vs = ws ∧ s = t := by
  induction vs generalizing ws with
  | nil =>
      obtain rfl := List.length_eq_zero_iff.mp length.symm
      exact ⟨rfl, same⟩
  | cons v vs ih =>
      obtain ⟨w, ws, rfl⟩ := List.exists_cons_of_length_eq_add_one length.symm
      rw [toList_spaced_cons, toList_spaced_cons] at same
      obtain ⟨rfl, rest⟩ :=
        (items v List.mem_cons_self).append_inj (items' w List.mem_cons_self)
          (follows_spaced after vs) (follows_spaced after' ws)
            (List.cons.inj same).2
      obtain ⟨rfl, rest⟩ := ih (Nat.succ.inj length)
        (fun u member => items u (List.mem_cons_of_mem v member))
        (fun u member => items' u (List.mem_cons_of_mem v member)) rest
      exact ⟨rfl, List.append_cancel_left rest⟩

end Instr

theorem ChannelLoad.word_text (l : ChannelLoad) : Word l.text := by
  have sign : Word (if l.signed then "s" else "u") := by split <;> decide
  exact (((word_byte l.channels).append (by decide)).append sign).append
    (word_byte l.bits)

theorem ChannelLoad.text_inj {l l' : ChannelLoad} (same : l.text = l'.text) :
    l = l' := by
  have cross (r : List Char) : Follows Char.isDigit ("x".toList ++ r) :=
    follows_cons rfl
  rw [← String.toList_inj] at same
  simp only [text, String.toList_append, List.append_assoc] at same
  obtain ⟨channels, same⟩ := repr_append_inj (cross _) (cross _) same
  have channels := UInt8.toNat_inj.mp channels
  have same := List.append_cancel_left same
  have sign : l.signed = l'.signed := by
    cases signed : l.signed <;> cases signed' : l'.signed <;> simp_all
  rw [sign] at same
  have bits := byte_inj (String.toList_inj.mp (List.append_cancel_left same))
  cases l
  cases l'
  simp_all

theorem Widening.name_inj {k k' : Widening} (same : k.name = k'.name) :
    k = k' := by
  cases k <;> cases k' <;> first | rfl | contradiction

theorem Argument.name_inj {a a' : Argument} (same : a.name = a'.name) :
    a = a' := by
  cases a <;> cases a' <;> first | rfl | contradiction

theorem Stream.Field.name_inj {f g : Stream.Field} (same : f.name = g.name) :
    f = g := by
  cases f <;> cases g <;> first | rfl | contradiction

theorem IndexWidth.name_inj {w w' : IndexWidth} (same : w.name = w'.name) :
    w = w' := by
  cases w <;> cases w' <;> first | rfl | contradiction

namespace Op

variable {ρ : Type}

/-- The operations differ at most in what is fixed in them and in their
operands. -/
inductive SameKind : Op ρ → Op ρ → Prop
  | argument (a a') : SameKind (.argument a) (.argument a')
  | stream (s f s' f') : SameKind (.stream s f) (.stream s' f')
  | laneNumbers : SameKind .laneNumbers .laneNumbers
  | single (w w') : SameKind (.single w) (.single w')
  | word (w w') : SameKind (.word w) (.word w')
  | binary (f a b a' b') : SameKind (.binary f a b) (.binary f a' b')
  | round (f a a') : SameKind (.round f a) (.round f a')
  | select (c t f c' t' f') : SameKind (.select c t f) (.select c' t' f')
  | extract (l a l' a') : SameKind (.extract l a) (.extract l' a')
  | insert (l a s l' a' s') : SameKind (.insert l a s) (.insert l' a' s')
  | shuffle (a b s a' b' s') : SameKind (.shuffle a b s) (.shuffle a' b' s')
  | permute (a s a' s') : SameKind (.permute a s) (.permute a' s')
  | shuffleBytes (a s a' s') :
      SameKind (.shuffleBytes a s) (.shuffleBytes a' s')
  | widen (k a k' a') : SameKind (.widen k a) (.widen k' a')
  | indices (w w') : SameKind (.indices w) (.indices w')
  | indicesMasked (w m w' m') :
      SameKind (.indicesMasked w m) (.indicesMasked w' m')
  | index (w o v w' o' v') : SameKind (.index w o v) (.index w' o' v')
  | load (s l o v s' l' o' v') : SameKind (.load s l o v) (.load s' l' o' v')
  | gather (s b o m s' b' o' m') :
      SameKind (.gather s b o m) (.gather s' b' o' m')

theorem sameKind_of_kind {op op' : Op ρ} (same : op.kind = op'.kind) :
    op.SameKind op' := by
  cases op <;> cases op' <;> cases same <;> constructor

namespace Kind

def all : List Kind :=
  [.argument, .stream, .laneNumbers, .single, .word, .select, .extract,
    .insert, .shuffle, .permute, .shuffleBytes, .widen, .indices,
    .indicesMasked, .index, .load, .gather] ++
  [Binary.add, .sub, .mul, .divSigned, .divUnsigned, .and, .mulSingle, .eq,
    .ltSigned, .gtSigned, .ltUnsigned, .leUnsigned].map .binary ++
  [Rounding.signed, .unsigned].map .round

theorem mem_all (k : Kind) : k ∈ all := by
  cases k with
  | binary f => cases f <;> decide
  | round f => cases f <;> decide
  | _ => decide

theorem nodup_names : (all.map name).Nodup := by
  decide

theorem name_inj {k k' : Kind} (same : k.name = k'.name) : k = k' :=
  List.inj_on_of_nodup_map nodup_names k.mem_all k'.mem_all same

theorem word_name (k : Kind) : Word k.name := by
  have each : ∀ k ∈ all, Word k.name := by decide
  exact each k k.mem_all

end Kind

theorem SameKind.length_immediates {op op' : Op ρ} (kind : op.SameKind op') :
    op.immediates.length = op'.immediates.length := by
  cases kind <;> simp only [immediates, List.length_cons]

theorem SameKind.length_operands {op op' : Op ρ} (kind : op.SameKind op') :
    op.operands.length = op'.operands.length := by
  cases kind <;> rfl

theorem item_immediates {op : Op ρ} (other : ∀ bits, op ≠ .single bits) :
    ∀ w ∈ op.immediates, Item w := by
  have one {w : String} (item : Item w) : ∀ v ∈ [w], Item v :=
    List.forall_mem_singleton.mpr item
  have two {v w : String} (first : Item v) (second : Item w) :
      ∀ u ∈ [v, w], Item u :=
    List.forall_mem_cons.mpr ⟨first, one second⟩
  have stream (s : UInt8) : Item ("#" ++ toString s) :=
    .word (.append (by decide) (word_byte s))
  have width (w : IndexWidth) : Item w.name := .word (by cases w <;> decide)
  have list {β : Type} {f : β → String} (word : ∀ x, Word (f x)) (xs : List β) :
      Item (bracketed (xs.map f)) :=
        .list (List.forall_mem_map.mpr fun x _ => word x)
  cases op with
  | single bits => exact absurd rfl (other bits)
  | argument a => exact one (.word (by cases a <;> decide))
  | stream s f => exact two (stream s) (.word (by cases f <;> decide))
  | word w => exact one (.word (word_int _))
  | extract lane | insert lane => exact one (list word_byte [lane])
  | shuffle _ _ s | permute _ s => exact one (list word_byte s.toList)
  | shuffleBytes _ s =>
      have signed (m : Int8) : Word (toString m.toInt) := word_int m.toInt
      exact one (list signed s.toList)
  | widen k => exact one (.word (by cases k <;> decide))
  | indices w | indicesMasked w | index w => exact one (width w)
  | load s l => exact two (stream s) (.word l.word_text)
  | gather s bytes =>
      exact two (stream s) (.word ((word_byte bytes).append (by decide)))
  | laneNumbers | binary | round | select => exact List.forall_mem_nil _

theorem SameKind.shape_eq {op op' : Op ρ} (kind : op.SameKind op')
    (other : ∀ bits, op ≠ .single bits)
    (fixed : op.immediates = op'.immediates) : op.shape = op'.shape := by
  have stream {s s' : UInt8} (same : "#" ++ toString s = "#" ++ toString s') :
      s = s' :=
    byte_inj ((String.append_right_inj "#").mp same)
  have lane {l l' : UInt8}
      (same : bracketed [toString l] = bracketed [toString l']) : l = l' :=
    List.singleton_inj.mp
      (bracketed_map_inj word_byte (fun _ _ => byte_inj) rfl same)
  have lanes {s s' : LaneSelector}
      (same : bracketed (s.toList.map toString) =
        bracketed (s'.toList.map toString)) : s = s' :=
    Vector.toList_inj.mp
      (bracketed_map_inj word_byte (fun _ _ => byte_inj) (by simp) same)
  cases kind <;> simp only [immediates, List.cons.injEq, and_true] at fixed
  case single bits bits' => exact absurd rfl (other bits)
  case argument => rw [Argument.name_inj fixed]
  case stream => rw [stream fixed.1, Stream.Field.name_inj fixed.2]
  case word w w' =>
    have signed := Int32.toInt_inj.mp (Int.repr_inj.mp fixed)
    obtain rfl : w = w' := congrArg Int32.toUInt32 signed
    rfl
  case laneNumbers | binary | round | select => rfl
  case extract | insert =>
    rw [lane fixed]
    rfl
  case shuffle | permute =>
    rw [lanes fixed]
    rfl
  case shuffleBytes s _ s' =>
    have signed (m : Int8) : Word (toString m.toInt) := word_int m.toInt
    have number (m m' : Int8) (same : toString m.toInt = toString m'.toInt) :
        m = m' :=
      Int8.toInt_inj.mp (Int.repr_inj.mp same)
    rw [Vector.toList_inj.mp (bracketed_map_inj signed number (by simp) fixed)]
    rfl
  case widen =>
    rw [Widening.name_inj fixed]
    rfl
  case indices => rw [IndexWidth.name_inj fixed]
  case indicesMasked | index =>
    rw [IndexWidth.name_inj fixed]
    rfl
  case load =>
    rw [stream fixed.1, ChannelLoad.text_inj fixed.2]
    rfl
  case gather =>
    rw [stream fixed.1, byte_inj ((String.append_left_inj "b").mp fixed.2)]
    rfl

end Op

theorem Target.text_append_inj {target target' : Target} {s t : List Char}
    (same : target.text.toList ++ s = target'.text.toList ++ t) :
    target = target' ∧ s = t := by
  have comma (r : List Char) : Follows Char.isDigit (", ".toList ++ r) :=
    follows_cons rfl
  have close (r : List Char) : Follows Char.isDigit (")".toList ++ r) :=
    follows_cons rfl
  cases target <;> cases target' <;>
    simp only [text, toString, String.toList_append, List.append_assoc] at same
  case row.row =>
    obtain ⟨element, same⟩ :=
      repr_append_inj (comma _) (comma _) (List.append_cancel_left same)
    obtain ⟨component, same⟩ :=
      repr_append_inj (close _) (close _) (List.append_cancel_left same)
    rw [UInt8.toNat_inj.mp element, UInt8.toNat_inj.mp component]
    exact ⟨rfl, List.append_cancel_left same⟩
  case vertexId.vertexId => exact ⟨rfl, List.append_cancel_left same⟩
  case cutMask.cutMask => exact ⟨rfl, List.append_cancel_left same⟩
  all_goals simp at same

namespace Instr

theorem toList_padded (width : Nat) (w : String) :
    (padded width w).toList =
      w.toList ++ List.replicate (width - w.length) ' ' := by
  rw [padded, String.toList_append, String.toList_ofList]

theorem operation_inj {op op' : Op Nat} (other : ∀ bits, op ≠ .single bits)
    (same : (padded 16 op.name).toList ++
        ((spaced op.immediates).toList ++ (registerList op.operands).toList) =
      (padded 16 op'.name).toList ++
        ((spaced op'.immediates).toList ++
          (registerList op'.operands).toList)) : op = op' := by
  have rest (op : Op Nat) : Follows (· != ' ')
      ((spaced op.immediates).toList ++ (registerList op.operands).toList) :=
    follows_spaced (follows_registerList op.operands) op.immediates
  rw [toList_padded, toList_padded, List.append_assoc, List.append_assoc]
    at same
  obtain ⟨name, same⟩ :=
    append_inj_of_follows (op.kind.word_name.ne ' ' (by decide))
      (op'.kind.word_name.ne ' ' (by decide)) (follows_blanks rfl (rest op) _)
    (follows_blanks rfl (rest op') _) same
  have name : op.name = op'.name := String.toList_inj.mp name
  have kind := Op.sameKind_of_kind (Op.Kind.name_inj name)
  have other' : ∀ bits, op' ≠ .single bits := by
    rintro bits rfl
    cases kind
    exact other _ rfl
  rw [name] at same
  obtain ⟨fixed, registers⟩ :=
    spaced_append_inj kind.length_immediates (Op.item_immediates other)
      (Op.item_immediates other') (follows_registerList _)
        (follows_registerList _)
    (List.append_cancel_left same)
  exact Op.eq_of_shape (kind.shape_eq other fixed)
    (registerList_inj kind.length_operands (String.toList_inj.mp registers))

/-- No other instruction has the text of an instruction, literal singles
apart. -/
theorem eq_of_text {i j : Instr}
    (other : ∀ out bits, i ≠ .compute out (.single bits))
    (same : i.text = j.text) : i = j := by
  have equals (r : List Char) : Follows Char.isDigit (" = ".toList ++ r) :=
    follows_cons rfl
  rw [← String.toList_inj] at same
  cases i with
  | compute out op =>
      cases j with
      | store target source => simp [text] at same
      | compute out' op' =>
          simp only [text, String.toList_append, toList_padded 3,
            List.append_assoc] at same
          obtain ⟨rfl, same⟩ :=
            repr_append_inj (follows_blanks rfl (equals _) _)
              (follows_blanks rfl (equals _) _) (List.append_cancel_left same)
          have same := List.append_cancel_left (List.append_cancel_left same)
          have other' (bits : UInt32) : op ≠ .single bits := by
            rintro rfl
            exact other out bits rfl
          rw [operation_inj other' same]
  | store target source =>
      cases j with
      | compute out op => simp [text] at same
      | store target' source' =>
          simp only [text, String.toList_append, List.append_assoc] at same
          have same := List.append_cancel_left (List.append_cancel_left same)
          obtain ⟨rfl, registers⟩ :=
            Target.text_append_inj (List.append_cancel_left same)
          have length : [source].length = [source'].length := rfl
          have sources :=
            registerList_inj length (String.toList_inj.mp registers)
          rw [List.singleton_inj.mp sources]

theorem eq_of_text_load :
    (Instr.compute 12 (.load 3 ⟨8, 4, false⟩ 1 0)).text =
        "r12  = load.vtx         #3 4xu8 r1, r0" ∧
      Instr.compute 12 (.load 3 ⟨8, 4, false⟩ 1 0) =
        .compute (3 * 4) ((Op.load 3 ⟨8, 4, false⟩ 0 1).map (1 - ·)) := by
  have same : (Instr.compute 12 (.load 3 ⟨8, 4, false⟩ 1 0)).text =
      (Instr.compute (3 * 4)
        ((Op.load 3 ⟨8, 4, false⟩ 0 1).map (1 - ·))).text := by
    decide +kernel
  exact ⟨by decide +kernel, eq_of_text (by simp) same⟩

end Instr
end VertexFetch
