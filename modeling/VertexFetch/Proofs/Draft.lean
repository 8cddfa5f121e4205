import Mathlib.Data.List.Forall2
import VertexFetch.Draft
import VertexFetch.Proofs.Graph.Value

/-! What actions add to a draft. Nodes are only added, so an action is described
by the nodes that any later graph has because of it. -/

namespace VertexFetch

/-- From values `known` in the first draft the nodes added make values `given`
in the second. -/
structure Draft.Extends (known given : List Ref) (d e : Draft) : Prop where
  grown : d.graph ≤ e.graph
  formed : d.graph.WellFormed → (∀ r ∈ known, d.graph.IsValue r) →
    e.graph.WellFormed ∧ ∀ r ∈ given, e.graph.IsValue r

namespace Draft.Extends

variable {known given others : List Ref} {d e f : Draft}

theorem refl (d : Draft) (kept : ∀ r ∈ given, r ∈ known) :
    Extends known given d d :=
  ⟨d.graph.le_refl,
    fun formed values => ⟨formed, fun r member => values r (kept r member)⟩⟩

theorem trans (first : Extends known given d e)
    (second : Extends (given ++ known) others e f) :
    Extends known others d f := by
  refine ⟨Graph.le_trans first.grown second.grown, ?_⟩
  intro formed values
  obtain ⟨formed', values'⟩ := first.formed formed values
  refine second.formed formed' ?_
  intro r member
  rcases List.mem_append.mp member with new | old
  · exact values' r new
  · exact (values r old).mono first.grown

theorem weaken {fewer : List Ref} (extends_ : Extends known given d e)
    (known' : ∀ r ∈ known, r ∈ others) (given' : ∀ r ∈ fewer, r ∈ given) :
    Extends others fewer d e := by
  refine ⟨extends_.grown, ?_⟩
  intro formed values
  obtain ⟨formed', values'⟩ :=
    extends_.formed formed fun r member => values r (known' r member)
  exact ⟨formed', fun r member => values' r (given' r member)⟩

end Draft.Extends

namespace Build

variable {α β : Type} {known : List Ref}

/-- An action on values `known` that stores nothing, what values it gives, and
what holds of its result in every later graph. -/
def Does (known : List Ref) (m : Build α) (given : α → List Ref)
    (spec : Graph → α → Prop) : Prop :=
  ∀ d : Draft, Draft.Extends known (given (m d).1) d (m d).2 ∧
    (m d).2.stores = d.stores ∧
    ∀ g, (m d).2.graph ≤ g → spec g (m d).1

namespace Does

variable {m : Build α} {f : α → Build β} {given : α → List Ref}
  {spec : Graph → α → Prop} {given' : β → List Ref} {spec' : Graph → β → Prop}

theorem pure {a : α} (kept : ∀ r ∈ given a, r ∈ known) (holds : ∀ g, spec g a) :
    Does known (Pure.pure a) given spec :=
  fun d => ⟨.refl d kept, rfl, fun g _ => holds g⟩

theorem value {op : Op Ref} (operands : ∀ a ∈ op.operands, a ∈ known) :
    Does known (Build.value op) (fun r => [r])
      fun g r => g.op? r = some op := by
  intro d
  have here := d.graph.get?_push_size (.value op)
  refine ⟨⟨d.graph.le_push (.value op), ?_⟩, rfl, ?_⟩
  · intro formed values
    refine ⟨formed.push fun a named => values a (operands a named), ?_⟩
    intro r member
    obtain rfl := List.mem_singleton.mp member
    exact ⟨op, Graph.op?_eq_some.mpr here⟩
  · intro g grown
    exact Graph.op?_eq_some.mpr (grown _ _ here)

theorem bind (first : Does known m given spec)
    (second : ∀ a, Does (given a ++ known) (f a) given' fun g b => spec g a →
      spec' g b) :
    Does known (m >>= f) given' spec' := by
  intro d
  obtain ⟨extends_, stores, holds⟩ := first d
  obtain ⟨extends', stores', holds'⟩ := second (m d).1 (m d).2
  refine ⟨extends_.trans extends', stores'.trans stores, ?_⟩
  intro g grown
  exact holds' g grown (holds g (Graph.le_trans extends'.grown grown))

theorem weaken {others : List Ref} {fewer : α → List Ref}
    {less : Graph → α → Prop} (does : Does known m given spec)
    (known' : ∀ r ∈ known, r ∈ others)
    (given' : ∀ a, ∀ r ∈ fewer a, r ∈ given a)
    (spec' : ∀ g a, spec g a → less g a) : Does others m fewer less := by
  intro d
  obtain ⟨extends_, stores, holds⟩ := does d
  exact ⟨extends_.weaken known' (given' _), stores,
    fun g grown => spec' g _ (holds g grown)⟩

theorem all {ι : Type} {P : ι → Prop} {spec : ι → Graph → α → Prop}
    (inhabited : ∃ i, P i) (each : ∀ i, P i → Does known m given (spec i)) :
    Does known m given fun g a => ∀ i, P i → spec i g a := by
  intro d
  obtain ⟨i, holds⟩ := inhabited
  obtain ⟨extends_, stores, _⟩ := each i holds d
  exact ⟨extends_, stores, fun g grown i holds => (each i holds d).2.2 g grown⟩

theorem map {h : α → β} (does : Does known m given spec)
    (given_ : ∀ a, ∀ r ∈ given' (h a), r ∈ given a)
    (holds : ∀ g a, spec g a → spec' g (h a)) :
    Does known (h <$> m) given' spec' := by
  intro d
  obtain ⟨extends_, stores, first⟩ := does d
  exact ⟨extends_.weaken (fun _ => id) (given_ _), stores,
    fun g grown => holds g _ (first g grown)⟩

theorem mapM {make : β → Build α} {P : Graph → β → α → Prop} (bs : List β)
    (each : ∀ b ∈ bs, Does known (make b) given fun g a => P g b a) :
    Does known (bs.mapM make) (fun as => as.flatMap given)
      fun g as => bs.Forall₂ (P g) as := by
  induction bs with
  | nil =>
      rw [List.mapM_nil]
      exact .pure (by simp) (fun _ => .nil)
  | cons b bs induction =>
      rw [List.mapM_cons]
      refine .bind (each b List.mem_cons_self) fun a => ?_
      have rest := induction fun b member =>
        each b (List.mem_cons_of_mem _ member)
      refine .bind (rest.weaken (by simp +contextual) (fun _ _ => id)
        fun _ _ => id) fun as => ?_
      refine .pure (by simp +contextual [or_imp]) ?_
      intro g rest here
      exact .cons here rest

theorem report (event : Event) :
    Does known (Build.report event) (fun _ => []) fun _ _ => True :=
  fun d => ⟨⟨d.graph.le_refl, fun formed _ => ⟨formed, by simp⟩⟩, rfl,
    fun _ _ => trivial⟩

end Does
end Build

def Graph.Records (g : Graph) (stores : List Ref)
    (writes : List (Target × Ref)) : Prop :=
  stores.Forall₂ (fun r write => g.get? r = some (.store write.1 write.2))
    writes

namespace Emit

variable {α β : Type} {known : List Ref}

/-- An action on values `known`, what values it gives, and what holds in every
later graph of its result and its stores. Nothing is said of an action that
fails. -/
def Does (known : List Ref) (m : Emit α) (given : α → List Ref)
    (spec : Graph → α → List (Target × Ref) → Prop) : Prop :=
  ∀ d : Draft, d.graph ≤ (m.run d).2.graph ∧ ∀ a, (m.run d).1 = .ok a →
    Draft.Extends known (given a) d (m.run d).2 ∧ ∀ g, (m.run d).2.graph ≤ g →
      ∃ stores writes, (m.run d).2.stores.toList = d.stores.toList ++ stores ∧
        g.Records stores writes ∧ spec g a writes

theorem run_bind_ok {m : Emit α} {f : α → Emit β} {d : Draft} {a : α}
    (result : (m.run d).1 = .ok a) :
    (m >>= f).run d = (f a).run (m.run d).2 := by
  change ExceptT.bindCont f (m.run d).1 (m.run d).2 = _
  rw [result]
  rfl

theorem run_bind_error {m : Emit α} {f : α → Emit β} {d : Draft}
    {e : Unsupported} (result : (m.run d).1 = .error e) :
    (m >>= f).run d = (.error e, (m.run d).2) := by
  change ExceptT.bindCont f (m.run d).1 (m.run d).2 = _
  rw [result]
  rfl

theorem liftM_bind (m : Build α) (f : α → Build β) :
    (liftM (m >>= f) : Emit β) = liftM m >>= fun a => liftM (f a) :=
  rfl

inductive Steps {σ τ : Type} (step : σ → τ → σ → List (Target × Ref) → Prop) :
    σ → List τ → σ → List (Target × Ref) → Prop
  | nil (s : σ) : Steps step s [] s []
  | cons {s t u : σ} {a : τ} {rest : List τ}
        {before after : List (Target × Ref)} :
      step s a t before → Steps step t rest u after →
        Steps step s (a :: rest) u (before ++ after)

namespace Does

variable {m : Emit α} {f : α → Emit β} {given : α → List Ref}
  {spec : Graph → α → List (Target × Ref) → Prop} {given' : β → List Ref}
  {spec' : Graph → β → List (Target × Ref) → Prop}

theorem pure {a : α} (kept : ∀ r ∈ given a, r ∈ known)
    (holds : ∀ g, spec g a []) : Does known (Pure.pure a) given spec := by
  intro d
  refine ⟨d.graph.le_refl, ?_⟩
  intro b result
  cases result
  exact ⟨.refl d kept, fun g _ => ⟨[], [], by simp; rfl, .nil, holds g⟩⟩

theorem throw {e : Unsupported} :
    Does known (MonadExcept.throw e : Emit α) given spec := by
  intro d
  refine ⟨d.graph.le_refl, ?_⟩
  intro a result
  cases result

theorem lift {m : Build α} {spec : Graph → α → Prop}
    (does : m.Does known given spec) :
    Does known (liftM m) given fun g a writes => writes = [] ∧ spec g a := by
  intro d
  obtain ⟨extends_, stores, holds⟩ := does d
  refine ⟨extends_.grown, ?_⟩
  intro a result
  cases result
  refine ⟨extends_, fun g grown => ⟨[], [], ?_, .nil, rfl, holds g grown⟩⟩
  rw [List.append_nil]
  exact congrArg Array.toList stores

theorem store {target : Target} {source : Ref} (named : source ∈ known) :
    Does known (liftM (Build.store target source)) (fun _ => [])
      fun _ _ writes =>
      writes = [(target, source)] := by
  intro d
  have here := d.graph.get?_push_size (.store target source)
  refine ⟨d.graph.le_push _, ?_⟩
  intro _ _
  refine ⟨⟨d.graph.le_push _, ?_⟩, ?_⟩
  · intro formed values
    refine ⟨formed.push ?_, by simp⟩
    intro a operand
    obtain rfl := List.mem_singleton.mp operand
    exact values _ named
  · intro g grown
    refine ⟨[d.graph.size], [(target, source)], ?_, .cons (grown _ _ here) .nil,
      rfl⟩
    exact Array.toList_push

theorem bind (first : Does known m given spec)
    (second : ∀ a, Does (given a ++ known) (f a) given' fun g b writes =>
      ∀ before, spec g a before → spec' g b (before ++ writes)) :
    Does known (m >>= f) given' spec' := by
  intro d
  obtain ⟨grown, does⟩ := first d
  cases result : (m.run d).1 with
  | error e =>
      rw [run_bind_error result]
      exact ⟨grown, by simp⟩
  | ok a =>
      rw [run_bind_ok result]
      obtain ⟨extends_, holds⟩ := does a result
      obtain ⟨grown', does'⟩ := second a (m.run d).2
      refine ⟨Graph.le_trans grown grown', ?_⟩
      intro b result'
      obtain ⟨extends', holds'⟩ := does' b result'
      refine ⟨extends_.trans extends', ?_⟩
      intro g inside
      obtain ⟨stores, writes, appended, records, here⟩ :=
        holds g (Graph.le_trans grown' inside)
      obtain ⟨stores', writes', appended', records', there⟩ := holds' g inside
      refine ⟨stores ++ stores', writes ++ writes', ?_,
        List.rel_append records records',
        there writes here⟩
      rw [appended', appended, List.append_assoc]

theorem bindExcept {x : Except Unsupported α}
    (second : ∀ a, x = .ok a → Does known (f a) given' spec') :
    Does known (liftM x >>= f) given' spec' := by
  cases x with
  | error e =>
      intro d
      refine ⟨d.graph.le_refl, ?_⟩
      intro b result
      cases result
  | ok a => exact second a rfl

theorem weaken {others : List Ref} {fewer : α → List Ref}
    {less : Graph → α → List (Target × Ref) → Prop}
    (does : Does known m given spec) (known' : ∀ r ∈ known, r ∈ others)
    (given' : ∀ a, ∀ r ∈ fewer a, r ∈ given a)
    (spec' : ∀ g a writes, spec g a writes → less g a writes) :
    Does others m fewer less := by
  intro d
  obtain ⟨grown, does⟩ := does d
  refine ⟨grown, ?_⟩
  intro a result
  obtain ⟨extends_, holds⟩ := does a result
  refine ⟨extends_.weaken known' (given' a), ?_⟩
  intro g inside
  obtain ⟨stores, writes, appended, records, here⟩ := holds g inside
  exact ⟨stores, writes, appended, records, spec' g a writes here⟩

theorem afterReport {event : Event} (does : Does known m given spec) :
    Does known (liftM (Build.report event) >>= fun _ => m) given spec := by
  refine .bind (.lift (.report event)) fun _ => ?_
  refine does.weaken (by simp) (fun _ _ => id) ?_
  rintro g a writes holds _ ⟨rfl, _⟩
  exact holds

theorem foldlM {σ τ : Type} {step : σ → τ → Emit σ} {refs : σ → List Ref}
    {spec : Graph → σ → τ → σ → List (Target × Ref) → Prop}
    (as : List τ) (each : ∀ s, ∀ a ∈ as,
      Does (refs s ++ known) (step s a) refs
      fun g t writes => spec g s a t writes) (s : σ) :
    Does (refs s ++ known) (as.foldlM step s) refs fun g t writes =>
      Steps (spec g) s as t writes := by
  induction as generalizing s with
  | nil =>
      rw [List.foldlM_nil]
      exact .pure (by simp +contextual) fun _ => .nil s
  | cons a as induction =>
      rw [List.foldlM_cons]
      refine .bind (each s a List.mem_cons_self) fun t => ?_
      have rest := induction fun s a member =>
        each s a (List.mem_cons_of_mem _ member)
      refine (rest t).weaken (by simp +contextual [or_imp]) (fun _ _ => id) ?_
      intro g u writes steps before first
      exact .cons first steps

theorem forM {τ : Type} {make : τ → Emit Unit}
    {spec : Graph → τ → List (Target × Ref) → Prop} (as : List τ)
    (each : ∀ a ∈ as, Does known (make a) (fun _ => [])
      fun g _ writes => spec g a writes) :
    Does known (as.forM make) (fun _ => []) fun g _ writes =>
      ∃ parts, as.Forall₂ (spec g) parts ∧ writes = parts.flatten := by
  induction as with
  | nil =>
      exact .pure (by simp) fun _ => ⟨[], .nil, rfl⟩
  | cons a as induction =>
      refine .bind (each a List.mem_cons_self) fun _ => ?_
      have rest := induction fun a member =>
        each a (List.mem_cons_of_mem _ member)
      refine rest.weaken (by simp) (fun _ _ => id) ?_
      rintro g _ writes ⟨parts, rest, rfl⟩ before first
      exact ⟨before :: parts, .cons first rest, rfl⟩

end Does
end Emit
end VertexFetch
