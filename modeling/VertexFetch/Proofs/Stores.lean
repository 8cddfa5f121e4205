import Mathlib.Data.List.Induction
import VertexFetch.Proofs.Batch
import VertexFetch.Proofs.Pass

namespace VertexFetch

namespace Graph

def stored (g : Graph) (call : Call) (r : Ref) : Except Fault Lanes :=
  match g.get? r with
  | some (.store _ source) => g.value call source
  | _ => .error .outOfBounds

def lastStore? (g : Graph) (rs : List Ref) (target : Target) : Option Ref :=
  (rs.filter fun r => g.target? r = some target).getLast?

theorem lastStore?_append_singleton (g : Graph) (rs : List Ref) (r : Ref)
    (target : Target) : g.lastStore? (rs ++ [r]) target =
      if g.target? r = some target then some r else g.lastStore? rs target := by
  unfold lastStore?
  rw [List.filter_append, List.getLast?_append]
  by_cases here : g.target? r = some target
  · simp [here]
  · simp [here]

/-- What the stores of a list leave at a target: the value of the last that goes
there, or what was there before. -/
def left? (g : Graph) (call : Call) (rs : List Ref) (batch : Batch)
    (target : Target) : Option Lanes :=
  (g.lastStore? rs target).elim (batch.read? target)
    fun r => (g.stored call r).toOption

theorem left?_append_singleton (g : Graph) (call : Call) (rs : List Ref)
    (r : Ref) (batch : Batch) (target : Target) :
    g.left? call (rs ++ [r]) batch target =
      if g.target? r = some target then (g.stored call r).toOption
      else g.left? call rs batch target := by
  rw [left?, left?, lastStore?_append_singleton]
  split <;> rfl

variable {g : Graph} {call : Call} {batch last : Batch}

theorem read?_effect {r : Ref} (done : g.effect call r batch = .ok last)
    (target : Target) : last.read? target =
      if g.target? r = some target then (g.stored call r).toOption
      else batch.read? target := by
  cases found : g.get? r with
  | none =>
      simp only [effect, found] at done
      cases done
      simp [Graph.target?, found]
  | some n =>
      cases n with
      | value op =>
          simp only [effect, found] at done
          cases done
          simp [Graph.target?, found, Node.target?]
      | store place source =>
          rw [effect_of_store found] at done
          cases value : g.value call source with
          | error fault => simp [value, Except.bind] at done
          | ok v =>
              simp only [value, Except.bind] at done
              cases store : batch.store? place v with
              | none => simp [store] at done
              | some next =>
                  simp only [store] at done
                  cases done
                  have stored : (g.stored call r).toOption = some v := by
                    simp only [Graph.stored, found, value]
                    rfl
                  have target' : g.target? r = some place :=
                    target?_eq_some.mpr ⟨_, found⟩
                  rw [Batch.read?_store? store, stored, target']
                  simp only [Option.some.injEq, eq_comm]

theorem read?_effects {rs : List Ref}
    (done : rs.foldlM (fun batch r => g.effect call r batch) batch = .ok last)
    (target : Target) : last.read? target = g.left? call rs batch target := by
  induction rs using List.reverseRecOn generalizing last with
  | nil =>
      cases done
      rfl
  | append_singleton rs r induction =>
      rw [List.foldlM_append] at done
      obtain ⟨middle, before, after⟩ := bind_eq_ok.mp done
      simp only [List.foldlM_cons, List.foldlM_nil, bind_pure] at after
      rw [read?_effect after, induction before, left?_append_singleton]

theorem lastStore?_cons (g : Graph) (r : Ref) (rest : List Ref)
    (target : Target) :
    g.lastStore? (r :: rest) target =
      (g.lastStore? rest target).or
        (if g.target? r = some target then some r else none) := by
  unfold lastStore?
  rw [← List.singleton_append, List.filter_append, List.getLast?_append]
  by_cases here : g.target? r = some target
  · simp [here]
  · simp [here]

theorem lastStore?_eq_none {rs : List Ref} {target : Target} :
    g.lastStore? rs target = none ↔ ∀ r ∈ rs, g.target? r ≠ some target := by
  rw [lastStore?, List.getLast?_eq_none_iff, List.filter_eq_nil_iff]
  simp

theorem lastStore?_eq_none_iff_targets {rs : List Ref} {target : Target} :
    g.lastStore? rs target = none ↔ target ∉ rs.filterMap g.target? := by
  rw [lastStore?_eq_none, List.mem_filterMap]
  simp

theorem lastStores_sublist (g : Graph) (rs : List Ref) :
    (g.lastStores rs).Sublist rs := by
  induction rs with
  | nil => exact .slnil
  | cons r rest induction =>
      rw [lastStores_cons]
      split
      · exact induction.cons r
      · exact induction.cons_cons r

theorem filter_lastStores (g : Graph) (rs : List Ref) (target : Target) :
    ((g.lastStores rs).filter fun r => g.target? r = some target) =
      (g.lastStore? rs target).toList := by
  induction rs with
  | nil => rfl
  | cons r rest induction =>
      rw [lastStores_cons, lastStore?_cons]
      by_cases here : g.target? r = some target
      · cases later : g.lastStore? rest target with
        | none =>
            have last := lastStore?_eq_none_iff_targets.mp later
            rw [later] at induction
            rw [if_neg (by simpa [here] using last),
              List.filter_cons_of_pos (by simp [here]), induction]
            simp [here]
        | some s =>
            have overwritten : target ∈ rest.filterMap g.target? := by
              by_contra last
              simp [lastStore?_eq_none_iff_targets.mpr last] at later
            rw [later] at induction
            rw [if_pos ⟨target, here, overwritten⟩, induction]
            rfl
      · rw [if_neg here, Option.or_none, ← induction]
        split
        · rfl
        · rw [List.filter_cons_of_neg (by simp [here])]

theorem left?_lastStores (g : Graph) (call : Call) (rs : List Ref)
    (batch : Batch)
    (target : Target) :
    g.left? call (g.lastStores rs) batch target =
      g.left? call rs batch target := by
  have same : g.lastStore? (g.lastStores rs) target =
      g.lastStore? rs target := by
    rw [lastStore?, filter_lastStores]
    cases g.lastStore? rs target <;> rfl
  rw [left?, left?, same]

end Graph

namespace Program

variable {p : Program} {call : Call} {batch : Batch}

/-- The outputs are stores, each a node of its own. Several may go to one
target. -/
structure DistinctStores (p : Program) : Prop where
  store : ∀ r ∈ p.outputs, ∃ target, p.graph.target? r = some target
  nodup : p.outputs.Nodup

theorem distinctStores_iff (p : Program) : p.DistinctStores ↔
    (∀ r ∈ p.outputs, (p.graph.target? r).isSome = true) ∧ p.outputs.Nodup := by
  constructor
  · intro distinct
    exact ⟨fun r member =>
      Option.isSome_iff_exists.mpr (distinct.store r member), distinct.nodup⟩
  · rintro ⟨store, nodup⟩
    exact ⟨fun r member => Option.isSome_iff_exists.mp (store r member), nodup⟩

instance (p : Program) : Decidable p.DistinctStores :=
  decidable_of_iff _ p.distinctStores_iff.symm

theorem read?_run_lower (formed : p.WellFormed)
    (store : ∀ r ∈ p.outputs, ∃ target, p.graph.target? r = some target)
    {last : Machine} (ran : p.lower.run call batch = (last, none))
    (target : Target) :
    last.batch.read? target =
      p.graph.left? call p.outputs.eraseDups batch target := by
  obtain ⟨last', ran', effects⟩ :=
    run_lower_of_evaluates formed batch fun _ needed =>
    evaluates_of_run_lower formed ran needed
  cases ran.symm.trans ran'
  rw [filter_isStore_outputs store] at effects
  exact Graph.read?_effects effects target

theorem DistinctStores.read?_run_lower (distinct : p.DistinctStores)
    (formed : p.WellFormed) {last : Machine}
    (ran : p.lower.run call batch = (last, none)) (target : Target) :
    last.batch.read? target = p.graph.left? call p.outputs batch target := by
  rw [Program.read?_run_lower formed distinct.store ran,
    eraseDups_of_nodup distinct.nodup]

theorem DistinctStores.dropDeadStores (distinct : p.DistinctStores) :
    p.dropDeadStores.DistinctStores where
  store r member :=
    distinct.store r ((p.graph.lastStores_sublist p.outputs).subset member)
  nodup := distinct.nodup.sublist (p.graph.lastStores_sublist p.outputs)

theorem Needs.of_dropDeadStores {r : Ref} (needed : p.dropDeadStores.Needs r) :
    p.Needs r := by
  induction needed with
  | output member =>
      exact .output ((p.graph.lastStores_sublist p.outputs).subset member)
  | operand _ named before => exact .operand before named

theorem WellFormed.dropDeadStores (formed : p.WellFormed) :
    p.dropDeadStores.WellFormed where
  graph := formed.graph
  output_lt r member :=
    formed.output_lt r ((p.graph.lastStores_sublist p.outputs).subset member)

end Program
end VertexFetch
