import VertexFetch.Graph.Registers
import VertexFetch.Proofs.Graph.Order

namespace VertexFetch

theorem getElem?_countUses (size : Nat) (refs : List Ref) (x : Ref) :
    (countUses size refs)[x]? =
      if x < size then some (refs.count x) else none := by
  have counted : ∀ uses : Array Nat,
      (refs.foldl (fun uses r => uses.modify r (· + 1)) uses)[x]? =
        uses[x]?.map (· + refs.count x) := by
    induction refs with
    | nil => simp
    | cons r rest induction =>
        intro uses
        rw [List.foldl_cons, induction, Array.getElem?_modify, List.count_cons]
        by_cases same : r = x
        · cases uses[x]? with
          | none => simp
          | some n =>
              simp [same]
              omega
        · simp [same]
  rw [countUses, counted, Array.getElem?_replicate]
  split <;> simp

theorem countUses_congr {refs refs' : List Ref}
    (same : ∀ x, refs.count x = refs'.count x) (size : Nat) :
    countUses size refs = countUses size refs' := by
  apply Array.ext_getElem?
  intro x
  rw [getElem?_countUses, getElem?_countUses, same]

namespace Visit

def entered? : Visit → Option Ref
  | .enter r => some r
  | .leave _ => none

def left? : Visit → Option Ref
  | .enter _ => none
  | .leave r => some r

theorem filterMap_entered?_enter (rs : List Ref) :
    (rs.map Visit.enter).filterMap entered? = rs := by
  simp [List.filterMap_map, Function.comp_def, entered?]

theorem filterMap_left?_enter (rs : List Ref) :
    (rs.map Visit.enter).filterMap left? = [] := by
  simp [List.filterMap_map, Function.comp_def, left?]

end Visit

namespace Graph

/-- The nodes that a walk goes to, as often as it does, whether or not it enters
them. -/
def asked (g : Graph) (stack : List Visit) (seen : Array Bool) : List Ref :=
  match stack with
  | [] => []
  | .leave _ :: rest => g.asked rest seen
  | .enter r :: rest =>
      r :: if h : seen[r]? = some false then
        g.asked ((g.operands r).map .enter ++ .leave r :: rest)
          (seen.setIfInBounds r true)
      else g.asked rest seen
termination_by (seen.count false, stack.length)
decreasing_by
  · exact Prod.Lex.right _ (by simp)
  · exact Prod.Lex.left _ _ (count_unseen_lt h)
  · exact Prod.Lex.right _ (by simp)

/-- A walk goes to the nodes on its stack, and to the operands of those that it
enters. -/
theorem count_asked (g : Graph) (stack : List Visit) (seen : Array Bool)
    (x : Ref) :
    (g.asked stack seen).count x +
        ((stack.filterMap Visit.left?).flatMap g.operands).count x =
      (stack.filterMap Visit.entered?).count x +
        ((g.walk stack seen).flatMap g.operands).count x := by
  fun_induction walk g stack seen with
  | case1 => simp [asked]
  | case2 seen r rest induction =>
      rw [asked]
      simp only [List.filterMap_cons, Visit.left?, Visit.entered?,
        List.flatMap_cons, List.count_append]
      omega
  | case3 seen r rest unseen induction =>
      rw [asked, dif_pos unseen]
      simp only [List.filterMap_append, Visit.filterMap_left?_enter,
        Visit.filterMap_entered?_enter, List.filterMap_cons, Visit.left?,
        Visit.entered?, List.nil_append, List.flatMap_cons, List.count_append,
        List.count_cons] at induction ⊢
      omega
  | case4 seen r rest seen' induction =>
      rw [asked, dif_neg seen']
      simp only [List.filterMap_cons, Visit.left?, Visit.entered?,
        List.count_cons]
      omega

structure Live (g : Graph) (done uses : List Ref) (x : Ref) : Prop where
  done : x ∈ done
  used : x ∈ uses
  value : g.IsValue x

end Graph

namespace Allocation

/-- The registers when the nodes of `done` have been laid out and those of
`uses` are still to be used, each as often as it is listed. -/
structure Fits (a : Allocation) (g : Graph) (done uses : List Ref) : Prop where
  pending : ∀ x, x < g.size → a.pending[x]? = some (uses.count x)
  home : a.home.size = g.size
  busy : ∀ x, g.Live done uses x → a.busy[a.register x]? = some true
  apart : ∀ x y, g.Live done uses x → g.Live done uses y →
    a.register x = a.register y → x = y

variable {a : Allocation} {g : Graph} {done uses : List Ref} {r : Ref}

private theorem free_cases (busy : Array Bool) :
    let free := (busy.findIdx? (! ·)).getD busy.size
    busy[free]? = some false ∨ free = busy.size := by
  intro free
  cases found : busy.findIdx? (! ·) with
  | none => exact .inr (by simp [free, found])
  | some i =>
      obtain ⟨inside, isFree, _⟩ := Array.findIdx?_eq_some_iff_getElem.mp found
      refine .inl ?_
      have same : free = i := by simp [free, found]
      rw [same, Array.getElem?_eq_some_iff]
      exact ⟨inside, by simpa using isFree⟩

theorem busy_assign (a : Allocation) (r : Ref) :
    (∀ i, i ≠ (a.assign r).1 → (a.assign r).2.busy[i]? = a.busy[i]?) ∧
      (a.assign r).2.busy[(a.assign r).1]? = some true ∧
      a.busy[(a.assign r).1]? ≠ some true := by
  have cases := free_cases a.busy
  simp only [assign]
  generalize (a.busy.findIdx? (! ·)).getD a.busy.size = free at cases ⊢
  rcases cases with isFree | isNext
  · obtain ⟨inside, _⟩ := Array.getElem?_eq_some_iff.mp isFree
    rw [if_pos inside]
    refine ⟨?_, by simp [inside], by simp [isFree]⟩
    intro i other
    exact Array.getElem?_setIfInBounds_ne (Ne.symm other)
  · subst isNext
    rw [if_neg (Nat.lt_irrefl _)]
    refine ⟨?_, by simp, by simp⟩
    intro i other
    rw [Array.getElem?_push, if_neg other]

theorem register_assign_of_ne (a : Allocation) {r x : Ref} (other : x ≠ r) :
    (a.assign r).2.register x = a.register x := by
  simp only [assign, register]
  rw [Array.getElem?_setIfInBounds_ne (Ne.symm other)]

theorem register_assign (fits : a.Fits g done uses) (inside : r < g.size)
    (x : Ref) :
    (a.assign r).2.register x =
      if x = r then (a.assign r).1 else a.register x := by
  by_cases same : x = r
  · subst same
    rw [if_pos rfl]
    simp only [assign, register]
    rw [Array.getElem?_setIfInBounds_self_of_lt
      (by rw [fits.home]; exact inside)]
    rfl
  · rw [if_neg same, register_assign_of_ne a same]

theorem Fits.assign_ne (fits : a.Fits g done uses) {x : Ref}
    (live : g.Live done uses x) (r : Ref) : a.register x ≠ (a.assign r).1 := by
  intro same
  obtain ⟨_, _, notBusy⟩ := a.busy_assign r
  exact notBusy (same ▸ fits.busy x live)

theorem Fits.assign (fits : a.Fits g done uses) (inside : r < g.size) :
    (a.assign r).2.Fits g (done ++ [r]) uses := by
  obtain ⟨kept, taken, _⟩ := a.busy_assign r
  have old : ∀ x, g.Live (done ++ [r]) uses x → x ≠ r → g.Live done uses x := by
    intro x live other
    refine ⟨?_, live.used, live.value⟩
    simpa [other] using live.done
  refine ⟨fits.pending, ?_, ?_, ?_⟩
  · simpa [Allocation.assign] using fits.home
  · intro x live
    rw [register_assign fits inside]
    by_cases same : x = r
    · rw [if_pos same]
      exact taken
    · rw [if_neg same, kept _ (fits.assign_ne (old x live same) r)]
      exact fits.busy x (old x live same)
  · intro x y liveX liveY
    rw [register_assign fits inside, register_assign fits inside]
    by_cases sameX : x = r <;> by_cases sameY : y = r
    · exact fun _ => sameX.trans sameY.symm
    · rw [if_pos sameX, if_neg sameY]
      exact fun same => absurd same.symm (fits.assign_ne (old y liveY sameY) r)
    · rw [if_neg sameX, if_pos sameY]
      exact fun same => absurd same (fits.assign_ne (old x liveX sameX) r)
    · rw [if_neg sameX, if_neg sameY]
      exact fits.apart x y (old x liveX sameX) (old y liveY sameY)

theorem Fits.skip (fits : a.Fits g done uses) (store : ¬ g.IsValue r) :
    a.Fits g (done ++ [r]) uses := by
  have old : ∀ x, g.Live (done ++ [r]) uses x → g.Live done uses x := by
    intro x live
    refine ⟨?_, live.used, live.value⟩
    rcases List.mem_append.mp live.done with member | single
    · exact member
    · rw [List.mem_singleton.mp single] at live
      exact absurd live.value store
  exact ⟨fits.pending, fits.home, fun x live => fits.busy x (old x live),
    fun x y liveX liveY => fits.apart x y (old x liveX) (old y liveY)⟩

@[simp]
theorem register_release (a : Allocation) (r x : Ref) :
    (a.release r).register x = a.register x := by
  simp only [release]
  split <;> rfl

theorem Fits.release_eq (fits : a.Fits g done (r :: uses))
    (value : g.IsValue r) :
    a.release r =
      ⟨if r ∈ uses then a.busy else a.busy.setIfInBounds (a.register r) false,
        a.home, a.pending.modify r (· - 1)⟩ := by
  have left : (a.pending.modify r (· - 1))[r]? = some (uses.count r) := by
    rw [Array.getElem?_modify, fits.pending r value.lt]
    simp
  simp only [Allocation.release, left, Option.some.injEq, List.count_eq_zero]
  by_cases used : r ∈ uses
  · simp only [used, not_true_eq_false, if_true, if_false]
  · simp only [used, not_false_eq_true, if_true, if_false]
    rfl

theorem Fits.release (fits : a.Fits g done (r :: uses)) (member : r ∈ done)
    (value : g.IsValue r) : (a.release r).Fits g done uses := by
  have earlier : ∀ x, g.Live done uses x → g.Live done (r :: uses) x :=
    fun x live => ⟨live.done, List.mem_cons_of_mem r live.used, live.value⟩
  refine ⟨?_, ?_, ?_, ?_⟩
  · intro x inside
    rw [fits.release_eq value, Array.getElem?_modify, fits.pending x inside,
      List.count_cons]
    by_cases same : r = x <;> simp [same]
  · rw [fits.release_eq value, fits.home]
  · intro x live
    have busy := fits.busy x (earlier x live)
    rw [register_release, fits.release_eq value]
    dsimp only
    split
    next => exact busy
    next unused =>
      have other : a.register r ≠ a.register x := by
        intro same
        have equal : r = x :=
          fits.apart r x ⟨member, List.mem_cons_self, value⟩
            (earlier x live) same
        exact unused (equal ▸ live.used)
      rw [Array.getElem?_setIfInBounds_ne other]
      exact busy
  · intro x y liveX liveY
    rw [register_release, register_release]
    exact fits.apart x y (earlier x liveX) (earlier y liveY)

theorem Fits.releaseAll {operands : List Ref}
    (fits : a.Fits g done (operands ++ uses))
    (members : ∀ x ∈ operands, x ∈ done ∧ g.IsValue x) :
    (operands.foldl Allocation.release a).Fits g done uses := by
  induction operands generalizing a with
  | nil => exact fits
  | cons x rest induction =>
      obtain ⟨member, value⟩ := members x (by simp)
      exact induction (Fits.release fits member value)
        fun y later => members y (by simp [later])

@[simp]
theorem register_releaseAll (a : Allocation) (operands : List Ref) (x : Ref) :
    (operands.foldl release a).register x = a.register x := by
  induction operands generalizing a with
  | nil => rfl
  | cons r rest induction => rw [List.foldl_cons, induction, register_release]

theorem size_busy_assign (a : Allocation) (r : Ref) :
    a.busy.size ≤ (a.assign r).2.busy.size := by
  simp only [assign]
  split <;> simp

@[simp]
theorem size_busy_releaseAll (a : Allocation) (operands : List Ref) :
    (operands.foldl release a).busy.size = a.busy.size := by
  induction operands generalizing a with
  | nil => rfl
  | cons r rest induction =>
      rw [List.foldl_cons, induction]
      simp only [release]
      split <;> simp

end Allocation

namespace Program

/-- The uses of a node are the times that the walk goes to it. -/
theorem pending_allocation (p : Program) :
    p.allocation.pending = countUses p.graph.size
      (p.graph.asked (p.outputs.map .enter)
        (Array.replicate p.graph.size false)) := by
  apply countUses_congr
  intro x
  have asked := p.graph.count_asked (p.outputs.map .enter)
    (Array.replicate p.graph.size false) x
  rw [Visit.filterMap_left?_enter, Visit.filterMap_entered?_enter] at asked
  rw [List.count_append]
  exact asked.symm

theorem allocation_fits (p : Program) :
    p.allocation.Fits p.graph []
      (p.order.flatMap p.graph.operands ++ p.outputs) where
  pending x inside := by
    simp [allocation, getElem?_countUses, inside, Nat.add_comm]
  home := by simp [allocation]
  busy x live := absurd live.done (by simp)
  apart x y live := absurd live.done (by simp)

end Program
end VertexFetch
