import VertexFetch.Proofs.Support

namespace VertexFetch

section Lists

variable {α β ε : Type} {f : α → Except ε β} {as : List α} {e : ε}

theorem exists_mapM_of_forall (each : ∀ a ∈ as, ∃ b, f a = .ok b) :
    ∃ bs, as.mapM f = .ok bs := by
  induction as with
  | nil => exact ⟨[], List.mapM_nil⟩
  | cons a as induction =>
      obtain ⟨b, here⟩ := each a List.mem_cons_self
      obtain ⟨bs, rest⟩ :=
        induction fun a member => each a (List.mem_cons_of_mem _ member)
      exact ⟨b :: bs, by rw [List.mapM_cons, here, rest]; rfl⟩

theorem mapM_eq_error (each : ∀ a ∈ as, f a = .error e ∨ ∃ b, f a = .ok b)
    (fails : ∃ a ∈ as, f a = .error e) : as.mapM f = .error e := by
  induction as with
  | nil =>
      obtain ⟨a, member, _⟩ := fails
      cases member
  | cons a as induction =>
      rw [List.mapM_cons]
      rcases each a List.mem_cons_self with here | ⟨b, here⟩
      · rw [here]
        rfl
      · have later : ∃ a ∈ as, f a = .error e := by
          obtain ⟨a', member, failed⟩ := fails
          rcases List.mem_cons.mp member with rfl | member
          · cases here.symm.trans failed
          · exact ⟨a', member, failed⟩
        have rest :=
          induction (fun a member => each a (List.mem_cons_of_mem _ member))
            later
        rw [here, rest]
        rfl

theorem forM_eq_find? {f : α → Except ε Unit} {refused : α → Bool}
    {error : α → ε}
    (each : ∀ a, f a = if refused a then .error (error a) else .ok ())
    (as : List α) :
    as.forM f = (as.find? refused).elim (.ok ()) fun a => .error (error a) := by
  induction as with
  | nil => rfl
  | cons a as induction =>
      rw [List.forM, each a, List.find?_cons]
      cases refused a with
      | true => rfl
      | false => exact induction

end Lists

theorem Conversion.exists_gathered {bits : Nat} (narrow : bits = 8 ∨ bits = 16)
    (kind : ChannelKind) :
    ∃ conversion, gathered kind.extension kind.scaling bits =
      .ok conversion := by
  rcases narrow with rfl | rfl
  all_goals cases kind <;> exact ⟨_, rfl⟩

namespace Format

variable {f : Format}

/-- The numbers of a channel are as wide as a word, and not kept as they are. -/
def IsWideScaled (f : Format) : Prop :=
  (f.kind = .uscaled ∨ f.kind = .sscaled) ∧ f.channelBits = 32

def IsHalf (f : Format) : Prop := f.kind = .float ∧ f.channelBits = 16

instance (f : Format) : Decidable f.IsWideScaled :=
  inferInstanceAs (Decidable (_ ∧ _))

instance (f : Format) : Decidable f.IsHalf :=
  inferInstanceAs (Decidable (_ ∧ _))

theorem not_fraction_of_wide (wide : f.channelBits = 32) :
    f.kind ≠ .unorm ∧ f.kind ≠ .snorm := by
  have each : ∀ shape : Shape, shape.channelBits = 32 →
      ChannelKind.unorm ∉ shape.kinds ∧ ChannelKind.snorm ∉ shape.kinds := by
    intro shape
    cases shape <;> decide
  obtain ⟨unorm, snorm⟩ := each f.shape wide
  exact ⟨fun same => unorm (same ▸ f.listed),
    fun same => snorm (same ▸ f.listed)⟩

theorem not_float_of_eight (eight : f.channelBits = 8) : f.kind ≠ .float := by
  intro float
  have zero := extension_of_eight eight (by rw [float]; decide)
  rw [float] at zero
  cases zero

theorem exists_channel (narrow : ¬ f.IsWideScaled) (c : Fin 4) :
    ∃ channel, f.channel c = .ok channel := by
  unfold channel
  dsimp only
  split
  next => exact ⟨_, rfl⟩
  next => exact ⟨_, rfl⟩
  next float notWide notSixteen =>
    rcases Fetch.channelBits_cases f with eight | sixteen | wide
    · exact absurd float (not_float_of_eight eight)
    · exact absurd sixteen notSixteen
    · exact absurd wide notWide
  next =>
    obtain ⟨conversion, made⟩ := Conversion.exists_gathered (.inl rfl) f.kind
    exact ⟨_, by rw [made]; rfl⟩
  next =>
    obtain ⟨conversion, made⟩ := Conversion.exists_gathered (.inr rfl) f.kind
    exact ⟨_, by rw [made]; rfl⟩
  next wide _ =>
    obtain ⟨notUnorm, notSnorm⟩ := not_fraction_of_wide wide
    have unscaled : f.kind.scaling = .none := by
      cases kind : f.kind with
      | unorm => exact absurd kind notUnorm
      | snorm => exact absurd kind notSnorm
      | uscaled => exact absurd ⟨.inl kind, wide⟩ narrow
      | sscaled => exact absurd ⟨.inr kind, wide⟩ narrow
      | uint => rfl
      | sint => rfl
      | float => rfl
    exact ⟨_, if_pos unscaled⟩
  next notEight notSixteen notWide _ _ =>
    rcases Fetch.channelBits_cases f with eight | sixteen | wide
    · exact absurd eight notEight
    · exact absurd sixteen notSixteen
    · exact absurd wide notWide

theorem channel_of_wideScaled (wide : f.IsWideScaled) (c : Fin 4) :
    f.channel c = .error (.format .gather f.channelBits f.kind) := by
  obtain ⟨kind | kind, bits⟩ := wide
  all_goals
    unfold channel
    rw [kind, bits]
    rfl

theorem linear_of_half (half : f.IsHalf) :
    Conversion.linear f.kind f.channelBits =
      .error (.format .linear f.channelBits f.kind) := by
  rw [half.1, half.2]
  rfl

theorem exists_linear (notHalf : ¬ f.IsHalf) :
    ∃ conversion, Conversion.linear f.kind f.channelBits = .ok conversion := by
  cases kind : f.kind with
  | uint => exact ⟨_, rfl⟩
  | sint => exact ⟨_, rfl⟩
  | uscaled => exact ⟨_, rfl⟩
  | sscaled => exact ⟨_, rfl⟩
  | snorm =>
      rcases Fetch.channelBits_cases f with eight | sixteen | wide
      · exact ⟨_, by rw [eight]; rfl⟩
      · exact ⟨_, by rw [sixteen]; rfl⟩
      · exact absurd kind (not_fraction_of_wide wide).2
  | unorm =>
      rcases Fetch.channelBits_cases f with eight | sixteen | wide
      · exact ⟨_, by rw [eight]; rfl⟩
      · exact ⟨_, by rw [sixteen]; rfl⟩
      · exact absurd kind (not_fraction_of_wide wide).1
  | float =>
      rcases Fetch.channelBits_cases f with eight | sixteen | wide
      · exact absurd kind (not_float_of_eight eight)
      · exact absurd ⟨kind, sixteen⟩ notHalf
      · exact ⟨_, by rw [wide]; rfl⟩

end Format

namespace Attribute

variable {a : Attribute}

instance (a : Attribute) (c : Fin 4) : Decidable (a.Reads c) :=
  inferInstanceAs (Decidable (_ ∧ _))

/-- Attributes that cannot be fetched. Half floats cannot be loaded, and numbers
of 32 bits cannot be scaled where they are gathered, if any of them is gathered
at all. -/
def Refused (a : Attribute) : Strategy → Prop
  | .linear => a.format.IsHalf
  | .gather =>
      a.format.IsWideScaled ∧ ∃ c, a.packing.contains c.val ∧ a.Reads c

instance (a : Attribute) (strategy : Strategy) :
    Decidable (a.Refused strategy) :=
  match strategy with
  | .linear => inferInstanceAs (Decidable a.format.IsHalf)
  | .gather => inferInstanceAs (Decidable (_ ∧ ∃ c : Fin 4, _ ∧ a.Reads c))

def refusal (a : Attribute) (strategy : Strategy) : Unsupported :=
  .format strategy a.format.channelBits a.format.kind

theorem exists_component {c : Fin 4}
    (may : ¬ (a.format.IsWideScaled ∧ a.Reads c)) :
    ∃ component, a.component c = .ok component := by
  unfold component
  cases source : a.sources.get c with
  | skip => exact ⟨_, rfl⟩
  | zero => exact ⟨_, rfl⟩
  | oneFloat => exact ⟨_, rfl⟩
  | oneInt => exact ⟨_, rfl⟩
  | memory =>
      dsimp only
      split
      next inside =>
        obtain ⟨channel, made⟩ :=
          Format.exists_channel (fun wide => may ⟨wide, source, inside⟩) c
        exact ⟨_, by rw [made]; rfl⟩
      next => exact ⟨_, rfl⟩

theorem component_of_wideScaled {c : Fin 4} (wide : a.format.IsWideScaled)
    (reads : a.Reads c) : a.component c = .error (a.refusal .gather) := by
  unfold component
  rw [reads.1]
  dsimp only
  rw [if_pos reads.2, Format.channel_of_wideScaled wide]
  rfl

theorem support_eq (a : Attribute) (strategy : Strategy) :
    a.support strategy =
      if a.Refused strategy then .error (a.refusal strategy) else .ok () := by
  cases strategy with
  | linear =>
      by_cases half : a.format.IsHalf
      · rw [if_pos (show a.Refused .linear from half), support,
          Format.linear_of_half half]
        rfl
      · obtain ⟨conversion, made⟩ := Format.exists_linear half
        rw [if_neg (show ¬ a.Refused .linear from half), support, made]
        rfl
  | gather =>
      by_cases refused : a.Refused .gather
      · obtain ⟨wide, c, packed, reads⟩ := refused
        have failed : a.components = .error (a.refusal .gather) := by
          apply mapM_eq_error
          · intro c _
            by_cases reads : a.Reads c
            · exact .inl (component_of_wideScaled wide reads)
            · exact .inr (exists_component fun both => reads both.2)
          · exact ⟨c, mem_packed.mpr packed,
              component_of_wideScaled wide reads⟩
        rw [if_pos ⟨wide, c, packed, reads⟩, support, failed]
        rfl
      · have made : ∃ components, a.components = .ok components := by
          apply exists_mapM_of_forall
          intro c member
          exact exists_component fun both =>
            refused ⟨both.1, c, mem_packed.mp member, both.2⟩
        obtain ⟨components, made⟩ := made
        rw [if_neg refused, support, made]
        rfl

end Attribute

namespace Layout

variable {l : Layout}

def refused? (l : Layout) : Option Attribute :=
  l.attributes.find? fun a => a.Refused l.strategy

theorem support_eq (l : Layout) :
    l.support = l.refused?.elim (.ok ())
      fun a => .error (a.refusal l.strategy) := by
  apply forM_eq_find?
  intro a
  rw [a.support_eq]
  simp only [decide_eq_true_eq]

theorem refused?_eq_none :
    l.refused? = none ↔ ∀ a ∈ l.attributes, ¬ a.Refused l.strategy := by
  simp only [refused?, List.find?_eq_none, decide_eq_true_eq]

theorem compile_eq_error_iff {e : Unsupported} :
    l.compile = .error e ↔
      ∃ a, l.refused? = some a ∧ e = a.refusal l.strategy := by
  have settled := l.compile_eq_support.trans l.support_eq
  cases refused : l.refused? with
  | none =>
      rw [refused] at settled
      constructor
      · intro failed
        rw [failed] at settled
        cases settled
      · rintro ⟨a, found, _⟩
        cases found
  | some a =>
      rw [refused] at settled
      cases compiled : l.compile with
      | ok k =>
          rw [compiled] at settled
          cases settled
      | error e' =>
          rw [compiled] at settled
          cases settled
          constructor
          · intro same
            cases same
            exact ⟨a, rfl, rfl⟩
          · rintro ⟨a', found, rfl⟩
            cases found
            rfl

theorem exists_kernel_iff : (∃ k, l.compile = .ok k) ↔ l.refused? = none := by
  constructor
  · intro ⟨k, compiled⟩
    cases refused : l.refused? with
    | none => rfl
    | some a =>
        cases compiled.symm.trans (compile_eq_error_iff.mpr ⟨a, refused, rfl⟩)
  · intro none
    cases compiled : l.compile with
    | ok k => exact ⟨k, rfl⟩
    | error e =>
        obtain ⟨a, found, _⟩ := compile_eq_error_iff.mp compiled
        cases none.symm.trans found

/-- The programs of a compiled layout between the passes are such that the next
pass, and the lowering in the end, finds every node that it looks up. -/
theorem program_looksUp {k : Kernel} (compiled : l.compile = .ok k)
    (passes : List Pass) :
    (l.program.optimize passes).1.WellFormed ∧
      (l.program.optimize passes).1.LooksUp := by
  obtain ⟨writes, formed, records, targets, _⟩ := program_records compiled
  have once :=
    Program.storesOnce_of_records records (Target.nodup_all.sublist targets)
  have kept :=
    Program.kept_optimize passes
      (Program.wellFormed_of_records formed records) once
  exact ⟨kept.formed, kept.formed.looksUp⟩

/-- A layout has no kernel just if an attribute is refused, and the first such
attribute gives the text of the error. All other layouts go through every pass
and are lowered, node by node. -/
theorem compile_fails_iff (l : Layout) :
    ((∃ e, l.compile = .error e) ↔ ∃ a ∈ l.attributes, a.Refused l.strategy) ∧
    (∀ e, l.compile = .error e → ∃ a, l.refused? = some a ∧
      let f := a.format
      e.message = match l.strategy with
        | .gather =>
          s!"gather fetch does not support {f.channelBits} bit {f.kind.name} components"
        | .linear =>
          s!"linear fetch does not support {f.channelBits} bit {f.kind.name} components") ∧
    ((∀ a ∈ l.attributes, ¬ a.Refused l.strategy) → ∃ k, l.compile = .ok k ∧
      (∀ before after, Pass.schedule = before ++ after →
        (l.program.optimize before).1.WellFormed ∧
        (l.program.optimize before).1.LooksUp) ∧
      k.code.instrs.length =
        (l.program.optimize Pass.schedule).1.nodeCount) := by
  refine ⟨?_, ?_, ?_⟩
  · constructor
    · intro ⟨e, failed⟩
      obtain ⟨a, found, _⟩ := compile_eq_error_iff.mp failed
      exact ⟨a, List.mem_of_find?_eq_some
        found, by simpa using List.find?_some found⟩
    · intro ⟨a, member, refused⟩
      cases found : l.refused? with
      | none => exact absurd refused (refused?_eq_none.mp found a member)
      | some a => exact ⟨_, compile_eq_error_iff.mpr ⟨a, found, rfl⟩⟩
  · intro e failed
    obtain ⟨a, found, rfl⟩ := compile_eq_error_iff.mp failed
    refine ⟨a, found, ?_⟩
    cases l.strategy with
    | gather => rfl
    | linear => rfl
  · intro none
    obtain ⟨k, compiled⟩ := exists_kernel_iff.mpr (refused?_eq_none.mpr none)
    refine ⟨k, compiled, fun before _ _ => program_looksUp compiled before, ?_⟩
    rw [(compile_eq_ok compiled).2]
    exact Program.length_instrs_lower (program_looksUp compiled Pass.schedule).1

end Layout

end VertexFetch
