import Mathlib.Data.List.Induction
import Mathlib.Data.List.Nodup
import VertexFetch.Proofs.Graph.Lowering

/-! The registers of a program are as many as its order asks for. Every busy
register holds a value that is still used, so a new one is taken only where all
others are needed, and their number is the greatest number of values that are
live at once. -/

namespace VertexFetch

theorem Node.instr_congr {n : Node} {out out' : Nat}
    {register register' : Ref → Nat} (result : ∀ op, n = .value op → out = out')
    (agree : ∀ x ∈ n.operands, register x = register' x) :
    n.instr out register = n.instr out' register' := by
  cases n with
  | value op => rw [instr, instr, result op rfl, Op.map_congr agree]
  | store target source => rw [instr, instr, agree source (by simp [operands])]

namespace Graph

def live (g : Graph) (done uses : List Ref) : List Ref :=
  done.filter fun x => (g.op? x).isSome && uses.contains x

theorem mem_live {g : Graph} {done uses : List Ref} {x : Ref} :
    x ∈ g.live done uses ↔ g.Live done uses x := by
  simp only [live, List.mem_filter, Bool.and_eq_true, List.contains_iff_mem,
    Option.isSome_iff_exists]
  exact ⟨fun ⟨member, value, used⟩ => ⟨member, used, value⟩,
    fun live => ⟨live.done, live.value, live.used⟩⟩

end Graph

namespace Allocation

/-- The registers fit, and a busy one is the register of a live value. -/
structure Tight (a : Allocation) (g : Graph) (done uses : List Ref) : Prop
    extends Fits a g done uses where
  owned : ∀ i, a.busy[i]? = some true →
    ∃ x, g.Live done uses x ∧ a.register x = i

variable {a : Allocation} {g : Graph} {done uses : List Ref} {r : Ref}

theorem Tight.assign (tight : a.Tight g done uses) (value : g.IsValue r)
    (fresh : r ∉ done) (used : r ∈ uses) :
    (a.assign r).2.Tight g (done ++ [r]) uses := by
  obtain ⟨kept, _, _⟩ := a.busy_assign r
  refine ⟨tight.toFits.assign value.lt, ?_⟩
  intro i busy
  by_cases own : i = (a.assign r).1
  · refine ⟨r, ⟨by simp, used, value⟩, ?_⟩
    rw [register_assign tight.toFits value.lt, if_pos rfl, own]
  · rw [kept i own] at busy
    obtain ⟨x, live, place⟩ := tight.owned i busy
    have other : x ≠ r := by
      rintro rfl
      exact fresh live.done
    refine ⟨x, ⟨List.mem_append_left _ live.done, live.used, live.value⟩, ?_⟩
    rw [register_assign tight.toFits value.lt, if_neg other, place]

theorem Tight.skip (tight : a.Tight g done uses) (store : ¬g.IsValue r) :
    a.Tight g (done ++ [r]) uses := by
  refine ⟨tight.toFits.skip store, ?_⟩
  intro i busy
  obtain ⟨x, live, place⟩ := tight.owned i busy
  exact ⟨x, ⟨List.mem_append_left _ live.done, live.used, live.value⟩, place⟩

theorem Tight.release (tight : a.Tight g done (r :: uses)) (member : r ∈ done)
    (value : g.IsValue r) : (a.release r).Tight g done uses := by
  refine ⟨tight.toFits.release member value, ?_⟩
  intro i busy
  rw [tight.toFits.release_eq value] at busy
  dsimp only at busy
  split at busy
  next used =>
    obtain ⟨x, live, place⟩ := tight.owned i busy
    refine ⟨x, ⟨live.done, ?_, live.value⟩, by rw [register_release, place]⟩
    rcases List.mem_cons.mp live.used with rfl | later
    · exact used
    · exact later
  next =>
    have other : a.register r ≠ i := by
      rintro rfl
      rw [Array.getElem?_setIfInBounds_self] at busy
      split at busy <;> simp at busy
    rw [Array.getElem?_setIfInBounds_ne other] at busy
    obtain ⟨x, live, place⟩ := tight.owned i busy
    have later : x ∈ uses := by
      refine (List.mem_cons.mp live.used).resolve_left ?_
      rintro rfl
      exact other place
    exact ⟨x, ⟨live.done, later, live.value⟩, by rw [register_release, place]⟩

theorem Tight.releaseAll {operands : List Ref}
    (tight : a.Tight g done (operands ++ uses))
    (members : ∀ x ∈ operands, x ∈ done ∧ g.IsValue x) :
    (operands.foldl Allocation.release a).Tight g done uses := by
  induction operands generalizing a with
  | nil => exact tight
  | cons x rest induction =>
      obtain ⟨member, value⟩ := members x (by simp)
      exact induction (tight.release member value)
        fun y later => members y (by simp [later])

theorem Tight.live_subset (tight : a.Tight g done uses) :
    (g.live done uses).map a.register ⊆ List.range a.busy.size := by
  intro i named
  obtain ⟨x, member, rfl⟩ := List.mem_map.mp named
  obtain ⟨inside, _⟩ :=
    Array.getElem?_eq_some_iff.mp (tight.busy x (Graph.mem_live.mp member))
  exact List.mem_range.mpr inside

theorem Tight.nodup_registers (tight : a.Tight g done uses)
    (distinct : done.Nodup) : ((g.live done uses).map a.register).Nodup := by
  refine List.Nodup.map_on ?_ (List.Nodup.filter _ distinct)
  intro x memberX y memberY same
  exact tight.apart x y (Graph.mem_live.mp memberX)
    (Graph.mem_live.mp memberY) same

/-- A register is added only if all that there are hold live values. -/
theorem Tight.size_assign (tight : a.Tight g done uses) (distinct : done.Nodup)
    (r : Ref) : (a.assign r).2.busy.size =
      max a.busy.size ((g.live done uses).length + 1) := by
  have registers := tight.nodup_registers distinct
  have within := tight.live_subset
  simp only [Allocation.assign]
  cases found : a.busy.findIdx? (! ·) with
  | none =>
      have owned : List.range a.busy.size ⊆
          (g.live done uses).map a.register := by
        intro i inside
        rw [List.mem_range] at inside
        have busy :=
          Array.findIdx?_eq_none_iff.mp found a.busy[i]
            (Array.getElem_mem inside)
        obtain ⟨x, live, place⟩ := tight.owned i
          (Array.getElem?_eq_some_iff.mpr ⟨inside, by simpa using busy⟩)
        exact List.mem_map.mpr ⟨x, Graph.mem_live.mpr live, place⟩
      have lower := registers.length_le_of_subset within
      have upper := List.nodup_range.length_le_of_subset owned
      simp only [List.length_map, List.length_range] at lower upper
      simp
      omega
  | some free =>
      obtain ⟨inside, isFree, _⟩ := Array.findIdx?_eq_some_iff_getElem.mp found
      have unused : free ∉ (g.live done uses).map a.register := by
        intro named
        obtain ⟨x, member, place⟩ := List.mem_map.mp named
        have busy := tight.busy x (Graph.mem_live.mp member)
        rw [place, Array.getElem?_eq_getElem inside] at busy
        simp [Option.some.inj busy] at isFree
      have spare :=
        (List.nodup_cons.mpr ⟨unused, registers⟩).length_le_of_subset
          (List.cons_subset.mpr ⟨List.mem_range.mpr inside, within⟩)
      simp only [List.length_cons, List.length_map, List.length_range] at spare
      simp [inside]
      omega

end Allocation

namespace Graph

variable {g : Graph} {a : Allocation} {done uses : List Ref} {r : Ref}

theorem tight_claim {n : Node} (tight : a.Tight g done uses)
    (found : g.get? r = some n) (fresh : r ∉ done) (used : r ∈ uses) :
    (n.claim a r).2.Tight g (done ++ [r]) uses := by
  cases n with
  | value op => exact tight.assign ⟨op, op?_eq_some.mpr found⟩ fresh used
  | store target source => exact tight.skip (not_isValue_of_store found)

theorem size_place {n : Node} (found : g.get? r = some n) (a : Allocation) :
    (g.place a r).2.busy.size = (n.claim a r).2.busy.size := by
  rw [place_eq found, Allocation.size_busy_releaseAll]

theorem register_place {n : Node} (found : g.get? r = some n) (a : Allocation)
    (x : Ref) : (g.place a r).2.register x = (n.claim a r).2.register x := by
  rw [place_eq found, Allocation.register_releaseAll]

theorem placeAll_append (g : Graph) (first second : List Ref) (a : Allocation) :
    g.placeAll (first ++ second) a =
      ((g.placeAll first a).1 ++ (g.placeAll second (g.placeAll first a).2).1,
        (g.placeAll second (g.placeAll first a).2).2) := by
  induction first generalizing a with
  | nil => rfl
  | cons r rest induction => simp [placeAll, induction]

theorem register_placeAll (g : Graph) {rest : List Ref} {x : Ref}
    (other : x ∉ rest) (a : Allocation) :
    (g.placeAll rest a).2.register x = a.register x := by
  induction rest generalizing a with
  | nil => rfl
  | cons r rest induction =>
      simp only [List.mem_cons, not_or] at other
      rw [placeAll, induction other.2]
      cases found : g.get? r with
      | none => simp only [place, found]
      | some n => rw [register_place found, n.register_claim a other.1]

end Graph

namespace Program

def after (p : Program) (done : List Ref) : Allocation :=
  (p.graph.placeAll done p.allocation).2

def home (p : Program) : Ref → Nat := (p.after p.order).register

/-- The uses that are still to come before the nodes of `rest`. Each output is
one. -/
def uses (p : Program) (rest : List Ref) : List Ref :=
  rest.flatMap p.graph.operands ++ p.outputs

/-- The values of the first `k` nodes that node `k` or a later one uses, or that
are outputs. -/
def liveAt (p : Program) (k : Nat) : List Ref :=
  p.graph.live (p.order.take k) (p.uses (p.order.drop k))

def heldAt (p : Program) (k : Nat) : List Ref :=
  p.liveAt k ++ p.order[k]?.toList.filter fun r => (p.graph.op? r).isSome

/-- The number of registers that node `k` asks for, if it gives a value: one,
and those of the earlier values that are live. -/
def demand? (p : Program) (k : Nat) : Option Nat :=
  (p.order[k]?.bind p.graph.op?).map fun _ => (p.liveAt k).length + 1

def peak (p : Program) : Nat :=
  ((List.range p.order.length).filterMap p.demand?).foldl max 0

structure Due (p : Program) (done : List Ref) (r : Ref) (rest : List Ref)
    (n : Node) : Prop where
  found : p.graph.get? r = some n
  operands : ∀ x ∈ n.operands, x ∈ done
  distinct : done.Nodup
  fresh : r ∉ done
  laid : ∀ x ∈ done ++ [r], x ∉ rest
  used : r ∈ p.uses (r :: rest)

variable {p : Program} {done rest : List Ref} {r : Ref}

theorem uses_cons {n : Node} (found : p.graph.get? r = some n)
    (rest : List Ref) : p.uses (r :: rest) = n.operands ++ p.uses rest := by
  simp [uses, Graph.operands_of_get? found]

theorem liveAt_length (split : p.order = done ++ rest) :
    p.liveAt done.length = p.graph.live done (p.uses rest) := by
  simp [liveAt, split]

theorem after_append (p : Program) (done rest : List Ref) :
    p.after (done ++ rest) = (p.graph.placeAll rest (p.after done)).2 := by
  rw [after, Graph.placeAll_append]
  rfl

theorem after_concat (p : Program) (done : List Ref) (r : Ref) :
    p.after (done ++ [r]) = (p.graph.place (p.after done) r).2 := by
  rw [after_append]
  rfl

theorem mem_uses (formed : p.WellFormed) (split : p.order = done ++ r :: rest)
    (fresh : r ∉ done) : r ∈ p.uses rest := by
  have needed : p.Needs r := (mem_order formed).mp (by simp [split])
  cases needed with
  | output member => exact List.mem_append_right _ member
  | @operand user _ needs named =>
      have member := (mem_order formed).mpr needs
      rw [split, List.mem_append, List.mem_cons] at member
      rcases member with earlier | same | later
      · obtain ⟨pre, post, rfl⟩ := List.append_of_mem earlier
        have before : r ∈ pre :=
          operand_before formed (by simpa using split) named
        exact absurd (List.mem_append_left _ before) fresh
      · exact absurd (operand_before formed split (same ▸ named)) fresh
      · exact List.mem_append_left _ (List.mem_flatMap.mpr ⟨user, later, named⟩)

theorem exists_due (formed : p.WellFormed)
    (split : p.order = done ++ r :: rest) : ∃ n, p.Due done r rest n := by
  have member : r ∈ p.order := by simp [split]
  obtain ⟨n, found⟩ :=
    Graph.get?_of_lt (((mem_order formed).mp member).lt formed)
  have distinct := formed.ordered.order_nodup
  rw [split, List.append_cons, List.nodup_append] at distinct
  obtain ⟨earlier, _, apart⟩ := distinct
  obtain ⟨before, _, single⟩ := List.nodup_append.mp earlier
  have fresh : r ∉ done :=
    fun known => single r known r (List.mem_singleton_self r) rfl
  refine ⟨n, found, ?_, before, fresh,
    fun x known later => apart x known x later rfl, ?_⟩
  · intro x named
    rw [← Graph.operands_of_get? found] at named
    exact operand_before formed split named
  · rw [uses_cons found]
    exact List.mem_append_right _ (mem_uses formed split fresh)

theorem tight_after (formed : p.WellFormed) (split : p.order = done ++ rest) :
    (p.after done).Tight p.graph done (p.uses rest) := by
  induction done using List.reverseRecOn generalizing rest with
  | nil =>
      have start := p.allocation_fits
      rw [show p.order = rest from split] at start
      refine ⟨start, ?_⟩
      intro i busy
      simp [after, Graph.placeAll, allocation] at busy
  | append_singleton done r induction =>
      have split' : p.order = done ++ r :: rest := by simpa using split
      obtain ⟨n, due⟩ := exists_due formed split'
      have claimed :=
        Graph.tight_claim (induction split') due.found due.fresh due.used
      rw [uses_cons due.found] at claimed
      rw [after_concat, Graph.place_eq due.found]
      apply claimed.releaseAll
      intro x named
      exact ⟨List.mem_append_left _ (due.operands x named),
        formed.graph.operand r n due.found x named⟩

theorem size_after (formed : p.WellFormed) (split : p.order = done ++ rest) :
    (p.after done).busy.size =
      ((List.range done.length).filterMap p.demand?).foldl max 0 := by
  induction done using List.reverseRecOn generalizing rest with
  | nil => rfl
  | append_singleton done r induction =>
      have split' : p.order = done ++ r :: rest := by simpa using split
      obtain ⟨n, due⟩ := exists_due formed split'
      have before := induction split'
      have here : p.order[done.length]? = some r := by simp [split']
      rw [after_concat, Graph.size_place due.found, List.length_append,
        List.length_singleton, List.range_succ, List.filterMap_append,
        List.foldl_append, ← before]
      cases n with
      | value op =>
          have asked : p.demand? done.length =
              some ((p.graph.live done (p.uses (r :: rest))).length + 1) := by
            rw [demand?, here, Option.bind_some,
              Graph.op?_eq_some.mpr due.found, liveAt_length split']
            rfl
          rw [Node.claim, (tight_after formed split').size_assign due.distinct]
          simp [asked]
      | store target source =>
          have silent : p.demand? done.length = none := by
            simp [demand?, here, Graph.op?, due.found, Node.op?]
          simp [Node.claim, silent]

theorem Due.home_eq {n : Node} (due : p.Due done r rest n)
    (split : p.order = done ++ r :: rest) {x : Ref} (known : x ∈ done ++ [r]) :
    p.home x = (n.claim (p.after done) r).2.register x := by
  rw [home, split, List.append_cons, after_append,
    Graph.register_placeAll _ (due.laid x known), after_concat,
    Graph.register_place due.found]

theorem Due.instr_eq {n : Node} (due : p.Due done r rest n)
    (split : p.order = done ++ r :: rest)
    (fits : (p.after done).Fits p.graph done (p.uses (r :: rest))) :
    (p.graph.place (p.after done) r).1 = some (n.instr (p.home r) p.home) := by
  rw [Graph.place_eq due.found]
  refine congrArg some (Node.instr_congr ?_ ?_)
  · rintro op rfl
    rw [due.home_eq split (by simp), Node.claim,
      Allocation.register_assign fits (Graph.get?_lt due.found), if_pos rfl]
  · intro x named
    exact (due.home_eq
      split (List.mem_append_left _ (due.operands x named))).symm

theorem instrs_placeAll (formed : p.WellFormed)
    (split : p.order = done ++ rest) :
    (p.graph.placeAll done p.allocation).1.map some =
      done.map fun r => (p.graph.get? r).map
        fun n => n.instr (p.home r) p.home := by
  induction done using List.reverseRecOn generalizing rest with
  | nil => rfl
  | append_singleton done r induction =>
      have split' : p.order = done ++ r :: rest := by simpa using split
      obtain ⟨n, due⟩ := exists_due formed split'
      have placed : (p.graph.place (p.graph.placeAll done p.allocation).2 r).1 =
          some (n.instr (p.home r) p.home) :=
        due.instr_eq split' (tight_after formed split').toFits
      rw [Graph.placeAll_append, List.map_append, List.map_append,
        induction split']
      simp [Graph.placeAll, placed, due.found]

theorem Due.live {n : Node} (due : p.Due done r rest n)
    (split : p.order = done ++ r :: rest) {x : Ref}
    (held : x ∈ p.heldAt done.length) :
    p.graph.Live (done ++ [r]) (p.uses (r :: rest)) x := by
  have here : p.order[done.length]? = some r := by simp [split]
  rw [heldAt, liveAt_length split, here, List.mem_append] at held
  rcases held with earlier | own
  · have live := Graph.mem_live.mp earlier
    exact ⟨List.mem_append_left _ live.done, live.used, live.value⟩
  · simp only [Option.toList_some, List.mem_filter, List.mem_singleton] at own
    obtain ⟨rfl, value⟩ := own
    exact ⟨by simp, due.used, Option.isSome_iff_exists.mp value⟩

theorem home_lt_apart (formed : p.WellFormed)
    (split : p.order = done ++ r :: rest) {x : Ref}
    (held : x ∈ p.heldAt done.length) :
    p.home x < p.lower.registers ∧
      ∀ y ∈ p.heldAt done.length, p.home x = p.home y → x = y := by
  obtain ⟨n, due⟩ := exists_due formed split
  have claimed :=
    Graph.tight_claim (tight_after formed split) due.found due.fresh due.used
  have live := due.live split held
  refine ⟨?_, ?_⟩
  · obtain ⟨inside, _⟩ := Array.getElem?_eq_some_iff.mp (claimed.busy x live)
    rw [← due.home_eq split live.done, ← Graph.size_place due.found,
      ← after_concat] at inside
    have grown := Graph.size_busy_placeAll p.graph rest (p.after (done ++ [r]))
    rw [← after_append, ← List.append_cons, ← split] at grown
    exact Nat.lt_of_lt_of_le inside grown
  · intro y held'
    have live' := due.live split held'
    rw [due.home_eq split live.done, due.home_eq split live'.done]
    exact claimed.apart x y live live'

/-- The code of a program runs on as many registers as the node that asks for
most. Its instructions are the nodes in order, each once, and an operand is read
from the register that its value was put into; at every one of them the values
that are live and the result are in different registers. -/
theorem registers_lower_eq_peak (formed : p.WellFormed) :
    p.lower.registers = p.peak ∧ p.order.Nodup ∧
      p.lower.instrs.map some =
        (p.order.map fun r => (p.graph.get? r).map
          fun n => n.instr (p.home r) p.home) ∧
      ∀ k < p.order.length, ∀ x ∈ p.heldAt k, p.home x < p.lower.registers ∧
        ∀ y ∈ p.heldAt k, p.home x = p.home y → x = y := by
  have whole : p.order = p.order ++ [] := (List.append_nil _).symm
  refine ⟨size_after formed whole, formed.ordered.order_nodup,
    instrs_placeAll formed whole, ?_⟩
  intro k inside
  have split : p.order = p.order.take k ++ p.order[k] ::
      p.order.drop (k + 1) := by simp
  have length : (p.order.take k).length = k :=
    List.length_take_of_le (Nat.le_of_lt inside)
  intro x held
  rw [← length] at held ⊢
  exact home_lt_apart formed split held

/-- A sum that is used twice by one node and is an output besides, so that its
register is not given up, and a store that is an output twice. -/
def retained : Program where
  graph :=
    ⟨#[.value (.argument .startVertex), .value (.word 1),
      .value (.binary .add 0 1),
    .value (.binary .add 2 2), .value (.word 5), .value (.binary .mul 3 4),
    .store .vertexId 5]⟩
  outputs := [6, 2, 6]

theorem registers_lower_eq_peak_retained :
    retained.WellFormed ∧ retained.order = [0, 1, 2, 3, 4, 5, 6] ∧
      retained.peak = 4 ∧
      retained.lower.registers = 4 ∧
      retained.lower.instrs =
        [.compute 0 (.argument .startVertex), .compute 1 (.word 1),
          .compute 2 (.binary .add 0 1), .compute 0 (.binary .add 2 2),
          .compute 1 (.word 5), .compute 3 (.binary .mul 0 1),
          .store .vertexId 3] ∧
      retained.heldAt 5 = [2, 3, 4, 5] ∧
      ∀ y ∈ retained.heldAt 5, retained.home 2 = retained.home y → 2 = y := by
  have formed : retained.WellFormed := by decide
  have order : retained.order = [0, 1, 2, 3, 4, 5, 6] := by cbv
  have peak : retained.peak = 4 := by cbv
  have held : retained.heldAt 5 = [2, 3, 4, 5] := by cbv
  obtain ⟨registers, _, _, apart⟩ := registers_lower_eq_peak formed
  refine ⟨formed, order, peak, registers.trans peak, by cbv, held, ?_⟩
  exact (apart 5 (by simp [order]) 2 (by simp [held])).2

end Program
end VertexFetch
