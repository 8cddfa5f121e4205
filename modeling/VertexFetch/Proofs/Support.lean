import VertexFetch.Proofs.Kernel

/-! Which layouts have a kernel. Whether an action fails does not depend on the
draft it adds to, so that a layout fails as the first of its attributes that
cannot be fetched. -/

namespace VertexFetch

theorem forM_eq_ok {τ ε : Type} {f : τ → Except ε Unit} {as : List τ}
    (each : ∀ a ∈ as, f a = .ok ()) : as.forM f = .ok () := by
  induction as with
  | nil => rfl
  | cons a as induction =>
      have rest := induction fun a member =>
        each a (List.mem_cons_of_mem _ member)
      exact bind_eq_ok.mpr ⟨(), each a List.mem_cons_self, rest⟩

namespace Emit

variable {α β : Type}

/-- Whether an action fails and why is what `x` says, whatever the draft; of the
result of one that does not fail `post` holds. -/
def Settles (m : Emit α) (x : Except Unsupported Unit) (post : α → Prop) :
    Prop :=
  ∀ d : Draft, match x with
    | .ok _ => ∃ a, (m.run d).1 = .ok a ∧ post a
    | .error e => (m.run d).1 = .error e

namespace Settles

variable {m : Emit α} {f : α → Emit β} {x y : Except Unsupported Unit}
  {post : α → Prop} {post' : β → Prop}

theorem pure {a : α} (holds : post a) : Settles (Pure.pure a) (.ok ()) post :=
  fun _ => ⟨a, rfl, holds⟩

theorem lift {m : Build α} (holds : ∀ d, post (m d).1) :
    Settles (liftM m) (.ok ()) post :=
  fun d => ⟨(m d).1, rfl, holds d⟩

theorem bind (first : Settles m x post)
    (second : ∀ a, post a → Settles (f a) y post') :
    Settles (m >>= f) (x >>= fun _ => y) post' := by
  intro d
  have here := first d
  cases x with
  | error e => exact congrArg Prod.fst (run_bind_error here)
  | ok _ =>
      obtain ⟨a, result, holds⟩ := here
      rw [run_bind_ok result]
      exact second a holds (m.run d).2

theorem bindExcept {x : Except Unsupported α}
    (second : ∀ a, x = .ok a → Settles (f a) (.ok ()) post') :
    Settles (liftM x >>= f) (x.map fun _ => ()) post' := by
  cases x with
  | error e => exact fun _ => rfl
  | ok a => exact second a rfl

theorem weaken {post'' : α → Prop} (settles : Settles m x post)
    (less : ∀ a, post a → post'' a) : Settles m x post'' := by
  intro d
  have here := settles d
  cases x with
  | error e => exact here
  | ok _ =>
      obtain ⟨a, result, holds⟩ := here
      exact ⟨a, result, less a holds⟩

theorem afterLift {m : Build α} (second : ∀ a, Settles (f a) y post') :
    Settles (liftM m >>= f) y post' :=
  bind (lift fun _ => trivial) fun a (_ : True) => second a

theorem andThen (first : Settles m x post)
    (second : ∀ a, post a → Settles (f a) (.ok ()) post') :
    Settles (m >>= f) x post' := by
  have whole : (x >>= fun _ => .ok ()) = x := bind_pure x
  exact whole ▸ bind first second

theorem forM {τ : Type} {make : τ → Emit Unit} {x : τ → Except Unsupported Unit}
    (as : List τ) (each : ∀ a ∈ as, Settles (make a) (x a) fun _ => True) :
    Settles (as.forM make) (as.forM x) fun _ => True := by
  induction as with
  | nil => exact pure trivial
  | cons a as induction =>
      have rest := induction fun a member =>
        each a (List.mem_cons_of_mem _ member)
      exact bind (each a List.mem_cons_self) fun _ _ => rest

theorem forM_ok {τ : Type} {make : τ → Emit Unit} (as : List τ)
    (each : ∀ a ∈ as, Settles (make a) (.ok ()) fun _ => True) :
    Settles (as.forM make) (.ok ()) fun _ => True := by
  have all := forM as each
  rwa [forM_eq_ok fun _ _ => rfl] at all

end Settles
end Emit

theorem Build.length_mapM {α β : Type} (make : β → Build α) (bs : List β)
    (d : Draft) : (bs.mapM make d).1.length = bs.length := by
  induction bs generalizing d with
  | nil => rfl
  | cons b bs induction =>
      rw [List.mapM_cons]
      exact congrArg Nat.succ (induction (make b d).2)

namespace Attribute

/-- Whether an attribute can be fetched in one of the ways, or why it cannot. -/
def support (a : Attribute) : Strategy → Except Unsupported Unit
  | .linear =>
      (Conversion.linear a.format.kind a.format.channelBits).map fun _ => ()
  | .gather => a.components.map fun _ => ()

end Attribute

namespace Fetch

open Build

theorem loadAttribute_settles (slot : Nat) (a : Attribute) (indices : Ref)
    (checked : Bool) :
    (loadAttribute slot a indices checked).Settles (a.support .linear)
      fun _ => True := by
  apply Emit.Settles.bindExcept
  intro conversion _
  apply Emit.Settles.afterLift
  intro w
  apply Emit.Settles.afterLift
  intro low
  apply Emit.Settles.afterLift
  intro high
  apply Emit.Settles.afterLift
  intro rows
  apply Emit.Settles.forM_ok
  intro entry _
  exact .lift fun _ => trivial

namespace OpenRow

theorem write_settles {o : OpenRow} (room : o.row < maxAttributes) :
    o.write.Settles (.ok ()) fun next => next = { row := o.row + 1 } := by
  unfold write
  rw [if_neg (Nat.not_le.mpr room)]
  have stores :
      Emit.Settles (o.placed.forM fun write => liftM (store write.1 write.2))
        (.ok ())
      fun _ => True := by
    apply Emit.Settles.forM_ok
    intro write _
    exact .lift fun _ => trivial
  exact stores.bind fun _ _ => .afterLift fun _ => .pure rfl

theorem add_settles {o : OpenRow} (fits : o.Fits)
    (room : o.count < 4 * maxAttributes) (value? : Option Ref) :
    (o.add value?).Settles (.ok ()) fun next => next.Fits ∧
      next.count = o.count + 1 := by
  obtain ⟨few, rows⟩ := fits
  have bound : o.row < maxAttributes := by
    unfold count at room
    omega
  unfold add
  dsimp only
  split
  next full =>
    refine Emit.Settles.weaken (write_settles bound) ?_
    intro next same
    rw [List.length_append, List.length_singleton] at full
    simp only [same, Fits, count, List.length_nil]
    omega
  next notFull =>
    apply Emit.Settles.pure
    rw [List.length_append, List.length_singleton] at notFull
    simp only [Fits, count, List.length_append, List.length_singleton]
    omega

theorem addAll_settles {o : OpenRow} (fits : o.Fits)
    (values : List (Option Ref))
    (room : o.count + values.length ≤ 4 * maxAttributes) :
    (values.foldlM add o).Settles (.ok ()) fun next =>
      next.Fits ∧ next.count = o.count + values.length := by
  induction values generalizing o with
  | nil => exact .pure ⟨fits, rfl⟩
  | cons value? values induction =>
      rw [List.length_cons] at room
      rw [List.foldlM_cons]
      apply (add_settles fits (by omega) value?).bind
      intro next ⟨fits', count⟩
      apply (induction fits' (by omega)).weaken
      intro last ⟨fits'', count'⟩
      rw [List.length_cons]
      exact ⟨fits'', by omega⟩

theorem close_settles {o : OpenRow} (room : o.count ≤ 4 * maxAttributes) :
    o.close.Settles (.ok ()) fun _ => True := by
  unfold close
  split
  next => exact .pure trivial
  next nonempty =>
    have some : 0 < o.components.length := by
      rw [List.isEmpty_iff] at nonempty
      exact List.length_pos_iff.mpr nonempty
    have bound : o.row < maxAttributes := by
      unfold count at room
      omega
    exact (write_settles bound).bind fun _ _ => .pure trivial

end OpenRow

theorem length_components {a : Attribute} {components : List Component}
    (made : a.components = .ok components) : components.length ≤ 4 := by
  have length : a.packed.length = components.length :=
    (forall₂_of_mapM made).length_eq
  have few : a.packed.length ≤ (List.finRange 4).length :=
    List.length_filter_le _ _
  rw [length, List.length_finRange] at few
  exact few

theorem gatherAttribute_settles {o : OpenRow} (fits : o.Fits)
    (room : o.count + 4 ≤ 4 * maxAttributes) (a : Attribute) (indices : Ref) :
    (gatherAttribute o a indices).Settles (a.support .gather) fun next =>
      next.Fits ∧ next.count ≤ o.count + 4 := by
  apply Emit.Settles.bindExcept
  intro components made
  have few := length_components made
  have gathers : Emit.Settles (liftM (gatherComponents a components indices))
      (.ok ()) fun values =>
      values.length = components.length :=
    .lift fun d => Build.length_mapM _ _ _
  apply gathers.bind
  intro values length
  apply (OpenRow.addAll_settles fits values (by omega)).weaken
  intro next ⟨fits', count⟩
  exact ⟨fits', by omega⟩

theorem gathers_settles (attributes : List Attribute) (n : Nat) {o : OpenRow}
    (fits : o.Fits) (room : o.count + 4 * attributes.length ≤ 4 * maxAttributes)
    (indices : Ref) :
    Emit.Settles ((attributes.zipIdx n).foldlM (fun row entry => do
        liftM (report (.attribute entry.2 entry.1))
        gatherAttribute row entry.1 indices) o) (attributes.forM
        fun a => a.support .gather)
      fun last => last.count ≤ 4 * maxAttributes := by
  induction attributes generalizing n o with
  | nil => exact .pure room
  | cons a attributes induction =>
      rw [List.length_cons] at room
      have here : Emit.Settles (do
          liftM (report (.attribute n a))
          gatherAttribute o a indices) (a.support .gather) fun next =>
            next.Fits ∧ next.count ≤ o.count + 4 :=
        .afterLift fun _ => gatherAttribute_settles fits (by omega) a indices
      apply here.bind
      intro next ⟨fits', count⟩
      exact induction (n + 1) fits' (by omega)

theorem loads_settles (attributes : List Attribute) (n : Nat) (indices : Ref)
    (checked : Bool) : Emit.Settles ((attributes.zipIdx n).forM fun entry => do
        liftM (report (.attribute entry.2 entry.1))
        loadAttribute entry.2 entry.1 indices checked) (attributes.forM
        fun a => a.support .linear)
      fun _ => True := by
  induction attributes generalizing n with
  | nil => exact .pure trivial
  | cons a attributes induction =>
      have here : Emit.Settles (do
          liftM (report (.attribute n a))
          loadAttribute n a indices checked) (a.support .linear)
          fun _ => True :=
        .afterLift fun _ => loadAttribute_settles n a indices checked
      exact here.bind fun _ _ => induction (n + 1)

end Fetch

namespace Layout

def support (l : Layout) : Except Unsupported Unit :=
  l.attributes.forM fun a => a.support l.strategy

theorem emitAttributes_settles (l : Layout) (indices : Ref) :
    (l.emitAttributes indices).Settles l.support fun _ => True := by
  have few : 4 * l.attributes.length ≤ 4 * maxAttributes :=
    Nat.mul_le_mul_left 4 l.length_le
  unfold emitAttributes support
  cases l.strategy with
  | linear => exact Fetch.loads_settles l.attributes 0 indices l.checked
  | gather =>
      have gathers := Fetch.gathers_settles l.attributes 0 (o := {})
        ⟨by decide, by decide⟩
          (by simpa [Fetch.OpenRow.count] using few) indices
      exact gathers.andThen fun _ room => Fetch.OpenRow.close_settles room

theorem emit_settles (l : Layout) : l.emit.Settles l.support fun _ => True := by
  unfold emit
  apply Emit.Settles.afterLift
  intro _
  apply Emit.Settles.afterLift
  intro indices
  apply Emit.Settles.afterLift
  intro _
  cases cut : l.cut with
  | none => exact emitAttributes_settles l indices
  | some value =>
      apply Emit.Settles.afterLift
      intro literal
      apply Emit.Settles.afterLift
      intro mask
      apply Emit.Settles.afterLift
      intro _
      exact emitAttributes_settles l indices

/-- A layout has a kernel just if all its attributes can be fetched, and else
the first that cannot tells why. -/
theorem compile_eq_support (l : Layout) :
    l.compile.map (fun _ => ()) = l.support := by
  have settled := emit_settles l {}
  unfold compile compileReporting
  cases support : l.support with
  | error e =>
      rw [support] at settled
      split
      next failed draft run =>
        cases (congrArg Prod.fst run).symm.trans settled
        rfl
      next draft run => cases (congrArg Prod.fst run).symm.trans settled
  | ok _ =>
      rw [support] at settled
      obtain ⟨_, emitted, _⟩ := settled
      split
      next failed draft run => cases (congrArg Prod.fst run).symm.trans emitted
      next draft run => rfl

theorem exists_kernel {l : Layout} (supported : l.support = .ok ()) :
    ∃ k, l.compile = .ok k := by
  have settled := l.compile_eq_support.trans supported
  cases compiled : l.compile with
  | error e =>
      rw [compiled] at settled
      cases settled
  | ok k => exact ⟨k, rfl⟩

theorem support_of_compile {l : Layout} {k : Kernel}
    (compiled : l.compile = .ok k) : l.support = .ok () := by
  rw [← l.compile_eq_support, compiled]
  rfl

end Layout
end VertexFetch
