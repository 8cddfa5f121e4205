import VertexFetch.Graph.Order
import VertexFetch.Proofs.Graph.Value

namespace VertexFetch

namespace Graph

/-- The nodes that are done after a visit. A node that is done is passed over;
any other comes after its operands. -/
def visit (g : Graph) (r : Ref) (done : List Ref) : List Ref :=
  if r ∈ done then done
  else
    (g.operands r).foldl
      (fun done a => if a < r then g.visit a done else done) done ++ [r]
termination_by r

def visitAll (g : Graph) (rs done : List Ref) : List Ref :=
  rs.foldl (fun done r => g.visit r done) done

@[simp]
theorem visitAll_nil (g : Graph) (done : List Ref) :
    g.visitAll [] done = done := rfl

@[simp]
theorem visitAll_cons (g : Graph) (r : Ref) (rs done : List Ref) :
    g.visitAll (r :: rs) done = g.visitAll rs (g.visit r done) := rfl

theorem operand_lt {g : Graph} (ordered : g.Ordered) {r a : Ref}
    (named : a ∈ g.operands r) : a < r := by
  cases found : g.get? r with
  | none => simp [operands, found] at named
  | some n =>
      rw [operands_of_get? found] at named
      exact ordered r n found a named

theorem visit_of_mem (g : Graph) {r : Ref} {done : List Ref}
    (member : r ∈ done) : g.visit r done = done := by
  rw [visit, if_pos member]

theorem visit_of_not_mem {g : Graph} (ordered : g.Ordered) {r : Ref}
    {done : List Ref} (fresh : r ∉ done) :
    g.visit r done = g.visitAll (g.operands r) done ++ [r] := by
  rw [visit, if_neg fresh, visitAll]
  congr 1
  have below : ∀ a ∈ g.operands r, a < r :=
    fun a named => operand_lt ordered named
  generalize g.operands r = as at below
  clear fresh
  induction as generalizing done with
  | nil => rfl
  | cons a rest induction =>
      simp only [List.foldl_cons, if_pos (below a (by simp))]
      exact induction fun b member => below b (by simp [member])

theorem mem_visit_self {g : Graph} (ordered : g.Ordered) (r : Ref)
    (done : List Ref) : r ∈ g.visit r done := by
  by_cases member : r ∈ done
  · rw [visit_of_mem g member]
    exact member
  · rw [visit_of_not_mem ordered member]
    simp

/-- One list of finished nodes comes from another by adding nodes with property
`P`, each new and after its operands. -/
inductive Finishes (g : Graph) (P : Ref → Prop) (start : List Ref) :
    List Ref → Prop
  | refl : Finishes g P start start
  | snoc {done : List Ref} {r : Ref} : Finishes g P start done → r ∉ done →
      (∀ a ∈ g.operands r, a ∈ done) → P r → Finishes g P start (done ++ [r])

namespace Finishes

variable {g : Graph} {P Q : Ref → Prop} {start middle done : List Ref}

theorem trans (first : Finishes g P start middle)
    (second : Finishes g P middle done) : Finishes g P start done := by
  induction second with
  | refl => exact first
  | snoc _ fresh operands property induction =>
      exact .snoc induction fresh operands property

theorem weaken (weaker : ∀ r, P r → Q r) (finishes : Finishes g P start done) :
    Finishes g Q start done := by
  induction finishes with
  | refl => exact .refl
  | snoc _ fresh operands property induction =>
      exact .snoc induction fresh operands (weaker _ property)

theorem subset (finishes : Finishes g P start done) :
    ∀ r ∈ start, r ∈ done := by
  induction finishes with
  | refl => exact fun _ member => member
  | snoc _ _ _ _ induction =>
      intro r member
      exact List.mem_append_left _ (induction r member)

theorem nodup (finishes : Finishes g P start done) (distinct : start.Nodup) :
    done.Nodup := by
  induction finishes with
  | refl => exact distinct
  | snoc _ fresh _ _ induction =>
      rw [List.nodup_append]
      refine ⟨induction, by simp, ?_⟩
      intro a member b single
      rw [List.mem_singleton.mp single]
      intro same
      exact fresh (same ▸ member)

theorem property (finishes : Finishes g P start done) {r : Ref}
    (member : r ∈ done) : r ∈ start ∨ P r := by
  induction finishes with
  | refl => exact .inl member
  | snoc _ _ _ holds induction =>
      rcases List.mem_append.mp member with old | new
      · exact induction old
      · rw [List.mem_singleton.mp new]
        exact .inr holds

theorem operand_before (finishes : Finishes g P [] done) {pre post : List Ref}
    {r a : Ref} (split : done = pre ++ r :: post) (named : a ∈ g.operands r) :
    a ∈ pre := by
  induction finishes generalizing post with
  | refl => simp at split
  | @snoc done last _ _ operands _ induction =>
      rcases List.eq_nil_or_concat post with rfl | ⟨front, final, rfl⟩
      · obtain ⟨rfl, same⟩ := List.append_inj' split rfl
        cases same
        exact operands a named
      · have longer : done ++ [last] = (pre ++ r :: front) ++ [final] := by
          simpa using split
        obtain ⟨shorter, _⟩ := List.append_inj' longer rfl
        exact induction shorter

theorem operand_mem (finishes : Finishes g P [] done) {r a : Ref}
    (member : r ∈ done) (named : a ∈ g.operands r) : a ∈ done := by
  obtain ⟨pre, post, split⟩ := List.append_of_mem member
  rw [split]
  exact List.mem_append_left _ (finishes.operand_before split named)

theorem foldl {β : Type} {f : β → Ref → β} {K : List Ref → β → Prop} {b : β}
    (first : K [] b)
    (step : ∀ done b r, Finishes g P [] done → K done b → r ∉ done →
      (∀ a ∈ g.operands r, a ∈ done) → P r → K (done ++ [r]) (f b r))
    (finishes : Finishes g P [] done) : K done (done.foldl f b) := by
  induction finishes with
  | refl => exact first
  | snoc before fresh operands property induction =>
      rw [List.foldl_append]
      exact step _ _ _ before induction fresh operands property

end Finishes

theorem visitAll_finishes {g : Graph} (ordered : g.Ordered) {P : Ref → Prop}
    {rs : List Ref}
    (each : ∀ r ∈ rs, ∀ done, Finishes g P done (g.visit r done))
    (done : List Ref) :
    Finishes g P done (g.visitAll rs done) ∧
      ∀ r ∈ rs, r ∈ g.visitAll rs done := by
  induction rs generalizing done with
  | nil => exact ⟨.refl, by simp⟩
  | cons r rest induction =>
      obtain ⟨others, members⟩ :=
        induction (fun x later => each x (by simp [later])) (g.visit r done)
      refine ⟨(each r (by simp) done).trans others, ?_⟩
      intro x named
      rcases List.mem_cons.mp named with rfl | later
      · exact others.subset _ (mem_visit_self ordered _ _)
      · exact members x later

/-- A visit only adds nodes that the visited one is made from, and none that
come after it. -/
theorem visit_finishes {g : Graph} (ordered : g.Ordered) {P : Ref → Prop}
    (closed : ∀ x, P x → ∀ a ∈ g.operands x, P a) {r : Ref} (holds : P r)
    (done : List Ref) :
    Finishes g (fun x => P x ∧ x ≤ r) done (g.visit r done) := by
  induction r using Nat.strongRecOn generalizing done with
  | ind r induction =>
      by_cases member : r ∈ done
      · rw [visit_of_mem g member]
        exact .refl
      · rw [visit_of_not_mem ordered member]
        have each : ∀ a ∈ g.operands r, ∀ done,
            Finishes g (fun x => P x ∧ x < r) done (g.visit a done) := by
          intro a named done
          have lt := operand_lt ordered named
          apply (induction a lt (closed r holds a named) done).weaken
          exact fun x below => ⟨below.1, Nat.lt_of_le_of_lt below.2 lt⟩
        obtain ⟨finishes, members⟩ := visitAll_finishes ordered each done
        have fresh : r ∉ g.visitAll (g.operands r) done := by
          intro visited
          rcases finishes.property visited with old | ⟨_, lt⟩
          · exact member old
          · exact Nat.lt_irrefl r lt
        have weaker : Finishes g (fun x => P x ∧ x ≤ r) done
            (g.visitAll (g.operands r) done) :=
          finishes.weaken fun x below => ⟨below.1, Nat.le_of_lt below.2⟩
        exact .snoc weaker fresh members ⟨holds, Nat.le_refl r⟩

def isStore (g : Graph) (r : Ref) : Bool := (g.target? r).isSome

theorem isStore_eq_false {g : Graph} {r : Ref} (value : g.IsValue r) :
    g.isStore r = false := by
  obtain ⟨op, found⟩ := value
  simp [isStore, target?, op?_eq_some.mp found, Node.target?]

theorem Finishes.filter_isStore {g : Graph} {start done : List Ref}
    (finishes : Finishes g g.IsValue start done) :
    done.filter g.isStore = start.filter g.isStore := by
  induction finishes with
  | refl => rfl
  | snoc _ _ _ value induction => simp [induction, isStore_eq_false value]

theorem filter_isStore_visit {g : Graph} (formed : g.WellFormed) (r : Ref)
    (done : List Ref) : (g.visit r done).filter g.isStore =
      done.filter g.isStore ++ if r ∈ done then []
        else [r].filter g.isStore := by
  by_cases member : r ∈ done
  · simp [visit_of_mem g member, member]
  · have closed : ∀ x, g.IsValue x → ∀ a ∈ g.operands x, g.IsValue a := by
      rintro x ⟨op, found⟩ a named
      have node := op?_eq_some.mp found
      rw [operands_of_get? node] at named
      exact formed.operand x _ node a named
    have each : ∀ a ∈ g.operands r,
        ∀ done, Finishes g g.IsValue done (g.visit a done) := by
      intro a named done
      have value : g.IsValue a := by
        cases found : g.get? r with
        | none => simp [operands, found] at named
        | some n =>
            rw [operands_of_get? found] at named
            exact formed.operand r n found a named
      exact (visit_finishes formed.ordered closed value done).weaken
        fun _ below => below.1
    have operands :=
      (visitAll_finishes formed.ordered each done).1.filter_isStore
    rw [visit_of_not_mem formed.ordered member, List.filter_append, operands,
      if_neg member]

theorem mem_visit_of_isStore {g : Graph} (formed : g.WellFormed) {x : Ref}
    (store : g.isStore x = true) (r : Ref) (done : List Ref) :
    x ∈ g.visit r done ↔ x ∈ done ∨ x = r := by
  have filtered : x ∈ (g.visit r done).filter g.isStore ↔ x ∈ done ∨ x = r := by
    rw [filter_isStore_visit formed]
    by_cases member : r ∈ done
    · simp only [member, if_true, List.append_nil, List.mem_filter, store,
        and_true]
      constructor
      · exact .inl
      · rintro (old | rfl)
        · exact old
        · exact member
    · simp [member, store]
  simpa [store] using filtered

theorem filter_isStore_visitAll {g : Graph} (formed : g.WellFormed)
    (rs done : List Ref) : (g.visitAll rs done).filter g.isStore =
      done.filter g.isStore ++
        ((rs.filter g.isStore).filter
          fun r => decide (r ∉ done)).eraseDups := by
  induction rs generalizing done with
  | nil => simp
  | cons r rest induction =>
      rw [visitAll_cons, induction, filter_isStore_visit formed]
      by_cases member : r ∈ done
      · rw [visit_of_mem g member]
        cases store : g.isStore r <;> simp [store, member]
      · cases store : g.isStore r with
        | false =>
            have later : (rest.filter g.isStore).filter
                (fun x => decide (x ∉ g.visit r done)) =
                (rest.filter g.isStore).filter fun x => decide (x ∉ done) := by
              apply List.filter_congr
              intro x stored
              have other := (List.mem_filter.mp stored).2
              have distinct : x ≠ r := by
                rintro rfl
                exact absurd other (by simp [store])
              simp [mem_visit_of_isStore formed other, distinct]
            rw [later]
            simp [store, member]
        | true =>
            have later : (rest.filter g.isStore).filter
                (fun x => decide (x ∉ g.visit r done)) =
                (rest.filter g.isStore).filter
                  fun x => !x == r && decide (x ∉ done) := by
              apply List.filter_congr
              intro x stored
              have other := (List.mem_filter.mp stored).2
              by_cases same : x = r
              · simp [same, mem_visit_self formed.ordered]
              · simp [same, mem_visit_of_isStore formed other]
            rw [later, ← List.filter_filter]
            simp [store, member, List.eraseDups_cons]

end Graph
end VertexFetch
