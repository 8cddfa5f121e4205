import VertexFetch.Proofs.Graph.Visits

/-! The walk as a loop that takes one visit at a time from its stack. It may go
by the nodes it has entered or by those it has finished when it decides whether
to enter a node: on a graph without cycles it comes to an end either way, and
the nodes are then finished in the order in which recursive visits to the
outputs finish them. -/

namespace VertexFetch

/-- A walk under way: the visits still to make, and the nodes entered and
finished so far. -/
structure Traversal where
  stack : List Visit
  entered : List Ref
  finished : List Ref

namespace Traversal

/-- Whether to enter a node, by the nodes entered and finished before. -/
abbrev Policy := List Ref → List Ref → Ref → Bool

def turn (g : Graph) (accepts : Policy) : Traversal → Option Traversal
  | ⟨[], _, _⟩ => none
  | ⟨.leave r :: rest, entered, finished⟩ =>
      some ⟨rest, entered, finished ++ [r]⟩
  | ⟨.enter r :: rest, entered, finished⟩ =>
      if accepts entered finished r then
        some ⟨(g.operands r).map .enter ++ .leave r :: rest, r :: entered,
          finished⟩
      else some ⟨rest, entered, finished⟩

inductive Turns (g : Graph) (accepts : Policy) :
    Nat → Traversal → Traversal → Prop
  | refl (t : Traversal) : Turns g accepts 0 t t
  | head {n : Nat} {t u v : Traversal} : t.turn g accepts = some u →
        Turns g accepts n u v →
      Turns g accepts (n + 1) t v

/-- A node is entered when it is seen for the first time, and not once it is
finished. Nothing is asked for in between, where a node is not met again. -/
structure Policy.FirstTime (accepts : Policy) : Prop where
  unseen : ∀ {entered finished : List Ref} {r}, finished ⊆ entered →
    r ∉ entered →
    accepts entered finished r = true
  finished : ∀ {entered finished : List Ref} {r}, finished ⊆ entered →
    r ∈ finished →
    accepts entered finished r = false

def unseen : Policy := fun entered _ r => decide (r ∉ entered)

def unfinished : Policy := fun _ finished r => decide (r ∉ finished)

theorem firstTime_unseen : unseen.FirstTime where
  unseen _ fresh := decide_eq_true fresh
  finished entered member := decide_eq_false (not_not_intro (entered member))

theorem firstTime_unfinished : unfinished.FirstTime where
  unseen entered fresh := decide_eq_true fun member => fresh (entered member)
  finished _ member := decide_eq_false (not_not_intro member)

variable {g : Graph} {accepts : Policy}

theorem Turns.trans {m n : Nat} {t u v : Traversal}
    (first : Turns g accepts m t u) (second : Turns g accepts n u v) :
    Turns g accepts (m + n) t v := by
  induction first with
  | refl => rwa [Nat.zero_add]
  | head turned _ induction =>
      rw [Nat.add_right_comm]
      exact .head turned (induction second)

/-- The nodes below the bound that have been entered are finished. A node above
it may be under way. -/
structure Level (bound : Nat) (entered finished : List Ref) : Prop where
  subset : finished ⊆ entered
  below : ∀ x ∈ entered, x < bound → x ∈ finished

variable {bound r : Nat} {entered entered' finished finished' : List Ref}

theorem Level.enter (level : Level bound entered finished) (lt : r < bound) :
    Level r (r :: entered) finished := by
  constructor
  · exact fun x member => List.mem_cons_of_mem r (level.subset member)
  · intro x seen lower
    have seen : x ∈ entered := List.mem_of_ne_of_mem (Nat.ne_of_lt lower) seen
    exact level.below x seen (Nat.lt_trans lower lt)

theorem Level.leave (level : Level bound entered finished)
    (operands : Level r entered' finished') (grown : finished ⊆ finished')
    (self : r ∈ entered') (kept : ∀ x ∈ entered', r ≤ x → x ∈ r :: entered) :
    Level bound entered' (finished' ++ [r]) := by
  constructor
  · exact List.append_subset.mpr
      ⟨operands.subset, List.cons_subset.mpr ⟨self, by simp⟩⟩
  · intro x seen below
    rcases Nat.lt_trichotomy x r with lower | rfl | upper
    · exact List.mem_append_left _ (operands.below x seen lower)
    · simp
    · have before := kept x seen (Nat.le_of_lt upper)
      have before : x ∈ entered :=
        List.mem_of_ne_of_mem (Nat.ne_of_gt upper) before
      exact List.mem_append_left _ (grown (level.below x before below))

end Traversal

namespace Graph

open Traversal

variable {g : Graph} {accepts : Policy}

/-- The turns that nodes take once they are entered: one for each operand, and
one to finish. -/
def turns (g : Graph) (rs : List Ref) : Nat :=
  (rs.flatMap g.operands).length + rs.length

theorem subset_visit (ordered : g.Ordered) (r : Ref) (done : List Ref) :
    done ⊆ g.visit r done :=
  (visit_finishes ordered (P := fun _ => True)
    (fun _ _ _ _ => trivial) trivial done).subset

theorem subset_visitAll (ordered : g.Ordered) (rs done : List Ref) :
    done ⊆ g.visitAll rs done := by
  induction rs generalizing done with
  | nil => exact fun _ member => member
  | cons r rest induction =>
      exact List.Subset.trans (subset_visit ordered r done)
        (induction (g.visit r done))

/-- What the loop does with visits it is asked for. No node from the bound on is
entered by them. -/
def Traverses (g : Graph) (accepts : Policy) (bound : Nat) (rs : List Ref) :
    Prop :=
  ∀ rest entered finished, Level bound entered finished → ∃ count entered',
    Level bound entered' (g.visitAll rs finished) ∧ entered ⊆ entered' ∧
    (∀ x ∈ entered', bound ≤ x → x ∈ entered) ∧
    count + g.turns finished = rs.length + g.turns (g.visitAll rs finished) ∧
    Turns g accepts count ⟨rs.map .enter ++ rest, entered, finished⟩
      ⟨rest, entered', g.visitAll rs finished⟩

private theorem Traverses.nil (g : Graph) (accepts : Policy) (bound : Nat) :
    g.Traverses accepts bound [] :=
  fun _ entered _ level =>
    ⟨0, entered, level, fun _ member => member, fun _ member _ => member, rfl,
      .refl _⟩

private theorem Traverses.cons {bound : Nat} {r : Ref} {rs : List Ref}
    (first : g.Traverses accepts bound [r])
    (others : g.Traverses accepts bound rs) :
    g.Traverses accepts bound (r :: rs) := by
  intro rest entered finished level
  obtain ⟨count, middle, level', more, kept, counted, turned⟩ :=
    first (rs.map .enter ++ rest) entered finished level
  obtain ⟨count', last, level'', more', kept', counted', turned'⟩ :=
    others rest middle _ level'
  refine ⟨count + count', last, level'', List.Subset.trans more more', ?_, ?_,
    turned.trans turned'⟩
  · intro x member above
    exact kept x (kept' x member above) above
  · simp only [visitAll_cons, visitAll_nil, List.length_cons, List.length_nil]
      at counted counted' ⊢
    omega

private theorem traverses_single (ordered : g.Ordered)
    (first : accepts.FirstTime) {r : Ref} {bound : Nat} (lt : r < bound) :
    g.Traverses accepts bound [r] := by
  induction r using Nat.strongRecOn generalizing bound with
  | ind r induction =>
      intro rest entered finished level
      by_cases member : r ∈ finished
      · have refused := first.finished level.subset member
        have whole : g.visitAll [r] finished = finished := visit_of_mem g member
        have passes :
            turn g accepts ⟨[r].map .enter ++ rest, entered, finished⟩ =
            some ⟨rest, entered, finished⟩ := by
          simp [turn, refused]
        rw [whole]
        exact ⟨1, entered, level, fun _ member => member,
          fun _ member _ => member, rfl,
          .head passes (.refl _)⟩
      · have fresh : r ∉ entered := fun seen => member (level.below r seen lt)
        have accepted := first.unseen level.subset fresh
        have operands : g.Traverses accepts r (g.operands r) := by
          have below : ∀ a ∈ g.operands r, a < r :=
            fun a named => operand_lt ordered named
          generalize g.operands r = as at below
          induction as with
          | nil => exact .nil g accepts r
          | cons a rest others =>
              have lt := below a (by simp)
              exact .cons (induction a lt lt)
                (others fun b later => below b (by simp [later]))
        obtain ⟨count, after, level', more, kept, counted, turned⟩ :=
          operands (.leave r :: rest) (r :: entered) finished (level.enter lt)
        have whole : g.visitAll [r] finished =
            g.visitAll (g.operands r) finished ++ [r] :=
          visit_of_not_mem ordered member
        have enters :
            turn g accepts ⟨[r].map .enter ++ rest, entered, finished⟩ =
            some ⟨(g.operands r).map .enter ++ .leave r :: rest, r :: entered,
              finished⟩ := by
          simp [turn, accepted]
        rw [whole]
        refine ⟨count + 1 + 1, after, ?_, ?_, ?_, ?_,
          .head enters (turned.trans (.head rfl (.refl _)))⟩
        · exact level.leave level' (subset_visitAll ordered _ _)
            (more List.mem_cons_self) kept
        · exact fun x member => more (List.mem_cons_of_mem r member)
        · intro x seen above
          have upper : r < x := Nat.lt_of_lt_of_le lt above
          exact List.mem_of_ne_of_mem (Nat.ne_of_gt upper)
            (kept x seen (Nat.le_of_lt upper))
        · simp only [turns, List.flatMap_append, List.flatMap_singleton,
            List.length_append, List.length_singleton] at counted ⊢
          omega

theorem traverses_all (ordered : g.Ordered) (first : accepts.FirstTime)
    {bound : Nat} {rs : List Ref} (below : ∀ r ∈ rs, r < bound) :
    g.Traverses accepts bound rs := by
  induction rs with
  | nil => exact .nil g accepts bound
  | cons r rest induction =>
      exact .cons (traverses_single ordered first (below r (by simp)))
        (induction fun x later => below x (by simp [later]))

theorem visit_eq (ordered : g.Ordered) (r : Ref) (done : List Ref) :
    g.visit r done =
      if r ∈ done then done else g.visitAll (g.operands r) done ++ [r] := by
  split
  next member => exact visit_of_mem g member
  next fresh => exact visit_of_not_mem ordered fresh

end Graph

end VertexFetch
