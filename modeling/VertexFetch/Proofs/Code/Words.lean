import Std.Data.String.ToInt
import Mathlib.Data.List.Basic
import VertexFetch.Code.Text

namespace VertexFetch

namespace Text

variable {inside : Char → Bool} {x y s t : List Char} {v w : String}
  {vs ws : List String} {β : Type} {f : β → String} {as bs : List β}

/-- What may come after a text of the characters `inside`, so that its end is
seen. -/
def Follows (inside : Char → Bool) (s : List Char) : Prop :=
  ∀ c ∈ s.head?, inside c = false

theorem follows_cons {c : Char} (outside : inside c = false) :
    Follows inside (c :: s) := by
  intro d first
  cases first
  exact outside

theorem follows_blanks (blank : inside ' ' = false) (after : Follows inside s)
    (n : Nat) : Follows inside (List.replicate n ' ' ++ s) := by
  cases n with
  | zero => exact after
  | succ n => exact follows_cons blank

theorem append_inj_of_follows (first : ∀ c ∈ x, inside c = true)
    (second : ∀ c ∈ y, inside c = true) (after : Follows inside s)
    (after' : Follows inside t) (same : x ++ s = y ++ t) : x = y ∧ s = t := by
  have ends {r : List Char} (follows : Follows inside r) :
      r.takeWhile inside = [] := by
    cases r with
    | nil => rfl
    | cons c r => rw [List.takeWhile_cons_of_neg (by simp [follows c rfl])]
  have taken := congrArg (List.takeWhile inside) same
  rw [List.takeWhile_append_of_pos first, List.takeWhile_append_of_pos second,
    ends after, ends after', List.append_nil, List.append_nil] at taken
  subst taken
  exact ⟨rfl, List.append_cancel_left same⟩

theorem isDigit_of_mem_repr {n : Nat} {c : Char} (member : c ∈ n.repr.toList) :
    c.isDigit = true := by
  rw [Nat.toList_repr] at member
  exact Nat.isDigit_of_mem_toDigits (by omega) (by omega) member

theorem repr_append_inj {m n : Nat} (after : Follows Char.isDigit s)
    (after' : Follows Char.isDigit t)
    (same : m.repr.toList ++ s = n.repr.toList ++ t) : m = n ∧ s = t := by
  obtain ⟨number, rest⟩ := append_inj_of_follows (fun _ => isDigit_of_mem_repr)
    (fun _ => isDigit_of_mem_repr) after after' same
  exact ⟨Nat.repr_inj.mp (String.toList_inj.mp number), rest⟩

def Word (w : String) : Prop := ∀ c ∈ w.toList, c ∉ [' ', ',', '[', ']']

instance (w : String) : Decidable (Word w) :=
  List.decidableBAll (· ∉ [' ', ',', '[', ']']) w.toList

theorem Word.append (first : Word v) (second : Word w) : Word (v ++ w) := by
  intro c inside
  rw [String.toList_append, List.mem_append] at inside
  exact inside.elim (first c) (second c)

theorem byte_inj {b b' : UInt8} (same : toString b = toString b') : b = b' :=
  UInt8.toNat_inj.mp (Nat.repr_inj.mp same)

theorem word_repr (n : Nat) : Word n.repr := by
  intro c member mark
  have digit := isDigit_of_mem_repr member
  simp only [List.mem_cons, List.not_mem_nil, or_false] at mark
  rcases mark with rfl | rfl | rfl | rfl <;> cases digit

theorem word_byte (b : UInt8) : Word (toString b) := word_repr b.toNat

theorem word_int (n : Int) : Word n.repr := by
  cases n with
  | ofNat n => exact word_repr n
  | negSucc n => exact Word.append (by decide) (word_repr _)

theorem Word.ne (word : Word w) (mark : Char)
    (marked : mark ∈ [' ', ',', '[', ']']) :
    ∀ c ∈ w.toList, (c != mark) = true := by
  intro c member
  rw [bne_iff_ne]
  rintro rfl
  exact word c member marked

theorem not_mem_joined (words : ∀ w ∈ ws, Word w) :
    ∀ c ∈ (", ".intercalate ws).toList, (c != ']') = true := by
  induction ws with
  | nil => simp
  | cons w ws ih =>
      have first := (words w List.mem_cons_self).ne ']' (by decide)
      have others := ih fun w' member =>
        words w' (List.mem_cons_of_mem w member)
      cases ws with
      | nil => simpa using first
      | cons w' ws =>
          rw [String.intercalate_cons_cons, String.toList_append,
            String.toList_append]
          intro c member
          rw [List.mem_append, List.mem_append] at member
          rcases member with (member | member) | member
          · exact first c member
          · rcases (by simpa using member : c = ',' ∨ c = ' ')
              with rfl | rfl <;> rfl
          · exact others c member

theorem joined_inj (length : vs.length = ws.length) (words : ∀ v ∈ vs, Word v)
    (words' : ∀ w ∈ ws, Word w)
    (same : ", ".intercalate vs = ", ".intercalate ws) : vs = ws := by
  induction vs generalizing ws with
  | nil => exact (List.length_eq_zero_iff.mp length.symm).symm
  | cons v vs ih =>
      obtain ⟨w, ws, rfl⟩ := List.exists_cons_of_length_eq_add_one length.symm
      have rest := Nat.succ.inj length
      cases vs with
      | nil =>
          obtain rfl := List.length_eq_zero_iff.mp rest.symm
          simpa using same
      | cons v' vs =>
          obtain ⟨w', ws, rfl⟩ :=
            List.exists_cons_of_length_eq_add_one rest.symm
          rw [String.intercalate_cons_cons, String.intercalate_cons_cons,
            ← String.toList_inj] at same
          simp only [String.toList_append, List.append_assoc] at same
          have comma (r : List Char) : Follows (· != ',') (", ".toList ++ r) :=
            follows_cons rfl
          obtain ⟨first, others⟩ := append_inj_of_follows
            ((words v List.mem_cons_self).ne ',' (by decide))
            ((words' w List.mem_cons_self).ne ',' (by decide)) (comma _)
              (comma _) same
          have others :=
            ih rest (fun u member => words u (List.mem_cons_of_mem v member))
              (fun u member => words' u (List.mem_cons_of_mem w member))
            (String.toList_inj.mp (List.append_cancel_left others))
          rw [String.toList_inj.mp first, others]

theorem joined_map_inj (word : ∀ a, Word (f a)) (inj : ∀ a b, f a = f b → a = b)
    (length : as.length = bs.length)
    (same : ", ".intercalate (as.map f) = ", ".intercalate (bs.map f)) :
    as = bs := by
  refine (List.map_inj_right inj).mp
    (joined_inj (by simpa using length) ?_ ?_ same)
  · exact List.forall_mem_map.mpr fun a _ => word a
  · exact List.forall_mem_map.mpr fun b _ => word b

/-- The items that an instruction fixes: words, and lists of words in
brackets. -/
inductive Item : String → Prop
  | word {w : String} : Word w → Item w
  | list {ws : List String} : (∀ w ∈ ws, Word w) → Item (bracketed ws)

theorem bracketed_map_inj (word : ∀ a, Word (f a))
    (inj : ∀ a b, f a = f b → a = b) (length : as.length = bs.length)
    (same : bracketed (as.map f) = bracketed (bs.map f)) : as = bs := by
  have joined :=
    (String.append_right_inj "[").mp ((String.append_left_inj "]").mp same)
  exact joined_map_inj word inj length joined

theorem toList_bracketed (ws : List String) (s : List Char) :
    (bracketed ws).toList ++ s =
      '[' :: ((", ".intercalate ws).toList ++ ']' :: s) := by
  simp [bracketed]

theorem Word.append_ne (word : Word w) (after : Follows (· != ' ') s) :
    w.toList ++ s ≠ '[' :: t := by
  intro same
  cases letters : w.toList with
  | nil =>
      rw [letters, List.nil_append] at same
      exact Bool.false_ne_true (after '[' (by rw [same]; rfl)).symm
  | cons c rest =>
      rw [letters] at same
      cases same
      exact word '[' (by simp [letters]) (by decide)

theorem Item.append_inj (item : Item v) (item' : Item w)
    (after : Follows (· != ' ') s) (after' : Follows (· != ' ') t)
    (same : v.toList ++ s = w.toList ++ t) : v = w ∧ s = t := by
  cases item with
  | word first =>
      cases item' with
      | word second =>
          obtain ⟨word, rest⟩ :=
            append_inj_of_follows (first.ne ' ' (by decide))
              (second.ne ' ' (by decide)) after after' same
          exact ⟨String.toList_inj.mp word, rest⟩
      | list words =>
          rw [toList_bracketed] at same
          exact absurd same (first.append_ne after)
  | list words =>
      rw [toList_bracketed] at same
      cases item' with
      | word second => exact absurd same.symm (second.append_ne after')
      | list words' =>
          rw [toList_bracketed] at same
          obtain ⟨joined, rest⟩ := append_inj_of_follows (not_mem_joined words)
            (not_mem_joined words') (follows_cons rfl) (follows_cons rfl)
              (List.cons.inj same).2
          rw [bracketed, bracketed, String.toList_inj.mp joined]
          exact ⟨rfl, (List.cons.inj rest).2⟩

end Text
end VertexFetch
