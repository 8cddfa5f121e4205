import VertexFetch.Proofs.Graph.Traversal

namespace VertexFetch

namespace Graph

open Traversal

variable {g : Graph} {n : Nat} {stack : List Visit} {seen : Array Bool}
  {entered entered' finished finished' : List Ref}

def Marks (g : Graph) (seen : Array Bool) (entered : List Ref) : Prop :=
  ∀ x, x < g.size → seen[x]? = some (decide (x ∈ entered))

theorem Marks.enter (marks : g.Marks seen entered) {r : Ref}
    (inside : r < g.size) :
    g.Marks (seen.setIfInBounds r true) (r :: entered) := by
  intro x within
  by_cases same : x = r
  · subst same
    obtain ⟨bounded, _⟩ := Array.getElem?_eq_some_iff.mp (marks x inside)
    rw [Array.getElem?_setIfInBounds_self_of_lt bounded]
    simp
  · rw [Array.getElem?_setIfInBounds_ne (Ne.symm same), marks x within]
    simp [same]

/-- The walk finishes what the loop finishes that enters unseen nodes. -/
theorem walk_of_turns (ordered : g.Ordered) (marks : g.Marks seen entered)
    (inside : ∀ r, .enter r ∈ stack → r < g.size)
    (turned : Turns g unseen n ⟨stack, entered, finished⟩
      ⟨[], entered', finished'⟩) :
    finished ++ g.walk stack seen = finished' := by
  generalize start : (⟨stack, entered, finished⟩ : Traversal) = t at turned
  generalize last : (⟨[], entered', finished'⟩ : Traversal) = v at turned
  induction turned generalizing stack seen entered finished with
  | refl =>
      cases last
      cases start
      rw [walk, List.append_nil]
  | head turned _ induction =>
      cases start
      cases stack with
      | nil => cases turned
      | cons visit rest =>
          cases visit with
          | leave r =>
              cases turned
              rw [walk, ← induction marks ?_ rfl last]
              · simp
              · exact fun x member => inside x (List.mem_cons_of_mem _ member)
          | enter r =>
              have within := inside r List.mem_cons_self
              have mark := marks r within
              have others : ∀ x, .enter x ∈ rest → x < g.size :=
                fun x member => inside x (List.mem_cons_of_mem _ member)
              rw [turn] at turned
              split at turned
              next fresh =>
                cases turned
                have unmarked : seen[r]? = some false := by
                  simpa [mark, unseen] using fresh
                rw [walk, dif_pos unmarked]
                refine induction (marks.enter within) ?_ rfl last
                intro x member
                rcases List.mem_append.mp member with named | later
                · obtain ⟨a, named, same⟩ := List.mem_map.mp named
                  cases same
                  exact Nat.lt_trans (operand_lt ordered named) within
                · simp only [List.mem_cons, reduceCtorEq, false_or] at later
                  exact others x later
              next entered =>
                cases turned
                have marked : ¬ seen[r]? = some false := by
                  simpa [mark, unseen] using entered
                rw [walk, dif_neg marked]
                exact induction marks others rfl last

end Graph

namespace Program

open Traversal

variable {p : Program}

theorem Ordered.turns_order (ordered : p.Ordered) {accepts : Policy}
    (first : accepts.FirstTime) :
    ∃ entered, Turns p.graph accepts
      (p.outputs.length + p.graph.turns (p.graph.visitAll p.outputs []))
      ⟨p.outputs.map .enter, [], []⟩
      ⟨[], entered, p.graph.visitAll p.outputs []⟩ := by
  obtain ⟨count, entered, _, _, _, counted, turned⟩ :=
    Graph.traverses_all ordered.graph first ordered.output_lt [] [] []
      ⟨by simp, by simp⟩
  rw [List.append_nil] at turned
  exact ⟨entered, counted ▸ turned⟩

/-- The order is the one of recursive visits to the outputs. -/
theorem Ordered.order_eq_visitAll (ordered : p.Ordered) :
    p.order = p.graph.visitAll p.outputs [] := by
  obtain ⟨entered, turned⟩ := ordered.turns_order firstTime_unseen
  have unmarked :
      p.graph.Marks (Array.replicate p.graph.size false) [] := by
    intro x inside
    simp [inside]
  have outputs : ∀ r, .enter r ∈ p.outputs.map Visit.enter →
      r < p.graph.size := by
    intro r member
    obtain ⟨output, listed, same⟩ := List.mem_map.mp member
    cases same
    exact ordered.output_lt r listed
  exact Graph.walk_of_turns ordered.graph unmarked outputs turned

theorem Ordered.order_finishes (ordered : p.Ordered) :
    p.graph.Finishes p.Needs [] p.order ∧ ∀ r ∈ p.outputs, r ∈ p.order := by
  rw [ordered.order_eq_visitAll]
  apply Graph.visitAll_finishes ordered.graph
  intro r output done
  have closed : ∀ x, p.Needs x → ∀ a ∈ p.graph.operands x, p.Needs a :=
    fun _ needed _ named => .operand needed named
  exact (Graph.visit_finishes ordered.graph closed (.output output) done).weaken
    fun _ below => below.1

theorem Ordered.order_nodup (ordered : p.Ordered) : p.order.Nodup :=
  ordered.order_finishes.1.nodup List.nodup_nil

theorem Ordered.operand_before (ordered : p.Ordered) {pre post : List Ref}
    {r a : Ref} (split : p.order = pre ++ r :: post)
    (named : a ∈ p.graph.operands r) : a ∈ pre :=
  ordered.order_finishes.1.operand_before split named

theorem Ordered.mem_order (ordered : p.Ordered) {r : Ref} :
    r ∈ p.order ↔ p.Needs r := by
  obtain ⟨finishes, outputs⟩ := ordered.order_finishes
  constructor
  · intro member
    exact (finishes.property member).resolve_left (by simp)
  · intro needed
    induction needed with
    | output member => exact outputs _ member
    | operand _ named member => exact finishes.operand_mem member named

theorem Ordered.needs_lt (ordered : p.Ordered) {r : Ref} (needed : p.Needs r) :
    r < p.graph.size := by
  induction needed with
  | output member => exact ordered.output_lt _ member
  | operand _ named lt =>
      exact Nat.lt_trans (Graph.operand_lt ordered.graph named) lt

theorem order_finishes (formed : p.WellFormed) :
    p.graph.Finishes p.Needs [] p.order ∧ ∀ r ∈ p.outputs, r ∈ p.order :=
  formed.ordered.order_finishes

theorem operand_before (formed : p.WellFormed) {pre post : List Ref} {r a : Ref}
    (split : p.order = pre ++ r :: post) (named : a ∈ p.graph.operands r) :
    a ∈ pre :=
  formed.ordered.operand_before split named

theorem mem_order (formed : p.WellFormed) {r : Ref} : r ∈ p.order ↔ p.Needs r :=
  formed.ordered.mem_order

theorem order_filter_isStore (formed : p.WellFormed) :
    p.order.filter p.graph.isStore =
      (p.outputs.filter p.graph.isStore).eraseDups := by
  rw [formed.ordered.order_eq_visitAll,
    Graph.filter_isStore_visitAll formed.graph]
  simp

theorem Needs.lt (formed : p.WellFormed) {r : Ref} (needed : p.Needs r) :
    r < p.graph.size :=
  formed.ordered.needs_lt needed

/-- The loop that starts with the outputs on its stack comes to an end, after
one turn for each output and each operand of a needed node and one for each
needed node. Then the needed nodes are finished, each once and after its
operands, in the order of recursive visits that take the outputs one after
another, and the operands of a node before the node. -/
theorem order_postorder (ordered : p.Ordered) (accepts : Policy)
    (first : accepts.FirstTime) :
    (∃ entered, Turns p.graph accepts (p.outputs.length + p.graph.turns p.order)
      ⟨p.outputs.map .enter, [], []⟩ ⟨[], entered, p.order⟩) ∧
    p.order.Nodup ∧ (∀ r, r ∈ p.order ↔ p.Needs r) ∧
    (∀ pre r post, p.order = pre ++ r :: post →
      ∀ a ∈ p.graph.operands r, a ∈ pre) ∧
    p.order = p.graph.visitAll p.outputs [] ∧
    ∀ r done, p.graph.visit r done =
      if r ∈ done then done
      else p.graph.visitAll (p.graph.operands r) done ++ [r] := by
  refine ⟨?_, ordered.order_nodup, fun _ => ordered.mem_order,
    fun _ _ _ split _ named => ordered.operand_before split named,
      ordered.order_eq_visitAll,
    Graph.visit_eq ordered.graph⟩
  rw [ordered.order_eq_visitAll]
  exact ordered.turns_order first

/-- A node that is an operand twice, a store that is an operand, and outputs
that are needed by others or come twice. -/
def tangled : Program where
  graph :=
    ⟨#[.value (.argument .startVertex), .value (.word 2),
      .value (.binary .add 1 1),
    .value (.binary .mul 2 0), .store .vertexId 3, .value (.extract 0 4)]⟩
  outputs := [4, 2, 5, 4]

theorem tangled_order : tangled.order = [1, 2, 0, 3, 4, 5] := by
  cbv

theorem order_postorder_tangled :
    tangled.Ordered ∧ unseen.FirstTime ∧ unfinished.FirstTime ∧
      tangled.order = [1, 2, 0, 3, 4, 5] ∧
      (∃ entered, Turns tangled.graph unseen 16
        ⟨[.enter 4, .enter 2, .enter 5, .enter 4], [], []⟩
        ⟨[], entered, [1, 2, 0, 3, 4, 5]⟩) ∧
      ∃ entered, Turns tangled.graph unfinished 16
        ⟨[.enter 4, .enter 2, .enter 5, .enter 4], [], []⟩
          ⟨[], entered, [1, 2, 0, 3, 4, 5]⟩ := by
  have ordered : tangled.Ordered := by decide
  have turned := (order_postorder ordered unseen firstTime_unseen).1
  have turned' := (order_postorder ordered unfinished firstTime_unfinished).1
  rw [tangled_order] at turned turned'
  exact ⟨ordered, firstTime_unseen, firstTime_unfinished, tangled_order, turned,
    turned'⟩

end Program
end VertexFetch
