import VertexFetch.Graph.Sweep
import VertexFetch.Proofs.Graph.Order

namespace VertexFetch

namespace Graph

variable {g h : Graph} {P : Ref → Prop} {r s : Ref}

theorem get?_eq_of_le (grown : g ≤ h) (inside : r < g.size) :
    h.get? r = g.get? r := by
  obtain ⟨n, found⟩ := get?_of_lt inside
  rw [found, grown r n found]

theorem op?_eq_of_le (grown : g ≤ h) (inside : r < g.size) :
    h.op? r = g.op? r := by
  rw [op?, op?, get?_eq_of_le grown inside]

theorem operands_eq_of_le (grown : g ≤ h) (inside : r < g.size) :
    h.operands r = g.operands r := by
  rw [operands, operands, get?_eq_of_le grown inside]

theorem lt_of_le (grown : g ≤ h) (inside : r < g.size) : r < h.size := by
  obtain ⟨n, found⟩ := get?_of_lt inside
  exact get?_lt (grown r n found)

theorem Ordered.push (ordered : g.Ordered) {n : Node}
    (inside : ∀ a ∈ n.operands, a < g.size) : (g.push n).2.Ordered := by
  intro r m found a named
  rw [get?_push] at found
  split at found
  next fresh =>
    cases found
    rw [fresh]
    exact inside a named
  next => exact ordered r m found a named

inductive Below (g : Graph) (r : Ref) : Ref → Prop
  | operand {a : Ref} : a ∈ g.operands r → Below g r a
  | next {a b : Ref} : Below g r a → b ∈ g.operands a → Below g r b

theorem below_operand {op : Op Ref} (found : g.op? r = some op)
    (named : s ∈ op.operands) : g.Below r s := by
  apply Below.operand
  rwa [operands_of_get? (op?_eq_some.mp found)]

theorem Below.lt_size (ordered : g.Ordered) (below : g.Below r s) :
    s < g.size := by
  induction below with
  | operand named =>
      cases found : g.get? r with
      | none => simp [operands, found] at named
      | some n => exact Nat.lt_trans (operand_lt ordered named) (get?_lt found)
  | next _ named lt => exact Nat.lt_trans (operand_lt ordered named) lt

structure Closed (g : Graph) (P : Ref → Prop) : Prop where
  lt : ∀ x, P x → x < g.size
  operand : ∀ x, P x → ∀ a ∈ g.operands x, P a

theorem Closed.mono (closed : g.Closed P) (grown : g ≤ h) : h.Closed P where
  lt x holds := lt_of_le grown (closed.lt x holds)
  operand x holds a named := by
    rw [operands_eq_of_le grown (closed.lt x holds)] at named
    exact closed.operand x holds a named

theorem Closed.below (closed : g.Closed P) (operands : ∀ a ∈ g.operands r, P a)
    (below : g.Below r s) : P s := by
  induction below with
  | operand named => exact operands _ named
  | next _ named holds => exact closed.operand _ holds _ named

theorem Closed.insert (closed : g.Closed P) (inside : s < g.size)
    (operands : ∀ a ∈ g.operands s, P a) : g.Closed fun x => P x ∨ x = s where
  lt x := by
    rintro (holds | rfl)
    · exact closed.lt x holds
    · exact inside
  operand x := by
    rintro (holds | rfl) a named
    · exact .inl (closed.operand x holds a named)
    · exact .inl (operands a named)

end Graph

inductive Replacement.Draws (P : Ref → Prop) : Replacement → Prop
  | keep : Draws P .keep
  | reuse {s : Ref} : P s → Draws P (.reuse s)
  | create {op : Op Ref} : (∀ a ∈ op.operands, P a) → Draws P (.create op)

namespace Graph

variable {g : Graph} {P : Ref → Prop} {r : Ref} {n : Node}
  {replacement : Replacement}

theorem le_replace (g : Graph) (r : Ref) (replacement : Replacement) :
    g ≤ (g.replace r replacement).2 := by
  cases replacement with
  | keep => exact g.le_refl
  | reuse other => exact g.le_refl
  | create op => exact g.le_push (.value op)

theorem rename_grows {holds : Graph → Prop} {ren : Renaming}
    (found : g.get? r = some n) (here : holds g)
    (pushed : holds (g.push (n.map ren.apply)).2) :
    holds (g.rename ren r).2 ∧ g ≤ (g.rename ren r).2 ∧
      (g.rename ren r).2.get? (g.rename ren r).1 = some (n.map ren.apply) := by
  have renamed : g.rename ren r =
      if n.map ren.apply = n then (r, g) else g.push (n.map ren.apply) := by
    simp only [rename, found]
  rw [renamed]
  split
  next same => exact ⟨here, g.le_refl, by rw [same]; exact found⟩
  next => exact ⟨pushed, g.le_push _, g.get?_push_size _⟩

theorem Closed.replace (closed : g.Closed P) (ordered : g.Ordered)
    (found : g.get? r = some n) (operands : ∀ a ∈ n.operands, P a)
    (draws : replacement.Draws P) : (g.replace r replacement).2.Ordered ∧
      (g.replace r replacement).2.Closed fun x => P x ∨
      x = (g.replace r replacement).1 := by
  cases draws with
  | keep =>
      have named : ∀ a ∈ g.operands r, P a := by
        rw [operands_of_get? found]
        exact operands
      exact ⟨ordered, closed.insert (get?_lt found) named⟩
  | reuse holds =>
      exact ⟨ordered,
        closed.insert (closed.lt _ holds) (closed.operand _ holds)⟩
  | @create op holds =>
      have made := g.get?_push_size (.value op)
      have named : ∀ a ∈ (g.push (.value op)).2.operands g.size, P a := by
        rw [operands_of_get? made]
        exact holds
      exact ⟨ordered.push fun a member => closed.lt a (holds a member),
        (closed.mono (g.le_push _)).insert (get?_lt made) named⟩

end Graph

/-- A rule that draws on the images so far, and whose memory satisfies `inv`
with respect to them. -/
structure Steady {σ : Type} (rule : Graph → σ → Ref → Replacement × σ)
    (inv : Graph → (Ref → Prop) → σ → Prop) : Prop where
  grow : ∀ {g h : Graph} {P memory}, g.Ordered → g ≤ h → g.Closed P →
    inv g P memory →
    inv h P memory
  step : ∀ {g : Graph} {P memory r n}, g.Ordered → g.Closed P → inv g P memory →
    g.get? r = some n → (∀ a ∈ n.operands, P a) →
    (rule g memory r).1.Draws P ∧
      inv (g.replace r (rule g memory r).1).2
        (fun x => P x ∨ x = (g.replace r (rule g memory r).1).1)
          (rule g memory r).2

namespace Sweep

variable {σ : Type} {rule : Graph → σ → Ref → Replacement × σ}
  {inv : Graph → (Ref → Prop) → σ → Prop} {origin : Graph} {done : List Ref}
  {s : Sweep σ} {r : Ref}

def IsImage (s : Sweep σ) (done : List Ref) (a : Ref) : Prop :=
  ∃ x ∈ done, s.moved.apply x = a

/-- A sweep over `origin` in which the nodes of `done` have been replaced. -/
structure Tracks (inv : Graph → (Ref → Prop) → σ → Prop) (origin : Graph)
    (done : List Ref) (s : Sweep σ) : Prop where
  ordered : s.graph.Ordered
  grown : origin ≤ s.graph
  images : s.moved.images.size = origin.size
  closed : s.graph.Closed (s.IsImage done)
  memory : inv s.graph (s.IsImage done) s.memory

theorem isImage_set (inside : r < s.moved.images.size) (fresh : r ∉ done)
    {image : Ref} {next : Sweep σ} (moved : next.moved = s.moved.set r image) :
    next.IsImage (done ++ [r]) = fun a => s.IsImage done a ∨ a = image := by
  funext a
  have elsewhere : ∀ x ∈ done, next.moved.apply x = s.moved.apply x := by
    intro x member
    have other : x ≠ r := fun same => fresh (same ▸ member)
    rw [moved, Renaming.apply_set s.moved inside, if_neg other]
  have here : next.moved.apply r = image := by
    rw [moved, Renaming.apply_set s.moved inside, if_pos rfl]
  apply propext
  constructor
  · rintro ⟨x, member, rfl⟩
    rcases List.mem_append.mp member with old | new
    · exact .inl ⟨x, old, (elsewhere x old).symm⟩
    · rw [List.mem_singleton.mp new]
      exact .inr here
  · rintro (⟨x, member, rfl⟩ | rfl)
    · exact ⟨x, List.mem_append_left _ member, elsewhere x member⟩
    · exact ⟨r, by simp, here⟩

theorem Tracks.rename (tracks : Tracks inv origin done s) {n : Node}
    (found : origin.get? r = some n) (operands : ∀ a ∈ n.operands, a ∈ done) :
    (s.graph.rename s.moved r).2.Ordered ∧
      s.graph ≤ (s.graph.rename s.moved r).2 ∧
      (s.graph.rename s.moved r).2.get? (s.graph.rename s.moved r).1 =
        some (n.map s.moved.apply) := by
  refine Graph.rename_grows (tracks.grown r n found) tracks.ordered
    (tracks.ordered.push ?_)
  intro b mapped
  rw [Node.operands_map] at mapped
  obtain ⟨a, named, rfl⟩ := List.mem_map.mp mapped
  exact tracks.closed.lt _ ⟨a, operands a named, rfl⟩

theorem Tracks.step (steady : Steady rule inv)
    (tracks : Tracks inv origin done s) {n : Node}
    (found : origin.get? r = some n) (fresh : r ∉ done)
    (operands : ∀ a ∈ n.operands, a ∈ done) :
    Tracks inv origin (done ++ [r]) (s.step rule r) := by
  obtain ⟨ordered₁, grown₁, node⟩ := tracks.rename found operands
  have inside : r < s.moved.images.size := by
    rw [tracks.images]
    exact Graph.get?_lt found
  have images : ∀ a ∈ (n.map s.moved.apply).operands, s.IsImage done a := by
    intro b mapped
    rw [Node.operands_map] at mapped
    obtain ⟨a, named, rfl⟩ := List.mem_map.mp mapped
    exact ⟨a, operands a named, rfl⟩
  have closed₁ := tracks.closed.mono grown₁
  have memory₁ := steady.grow tracks.ordered grown₁ tracks.closed tracks.memory
  obtain ⟨draws, memory₂⟩ := steady.step ordered₁ closed₁ memory₁ node images
  obtain ⟨ordered₂, closed₂⟩ := closed₁.replace ordered₁ node images draws
  have moved : (s.step rule r).moved = s.moved.set r _ := rfl
  have extended := isImage_set inside fresh moved
  constructor
  · exact ordered₂
  · exact Graph.le_trans tracks.grown
      (Graph.le_trans grown₁ (Graph.le_replace _ _ _))
  · simpa [Sweep.step, Renaming.set] using tracks.images
  · rw [extended]
    exact closed₂
  · rw [extended]
    exact memory₂

theorem Tracks.start (ordered : origin.Ordered) {memory : σ}
    (holds : inv origin (fun _ => False) memory) :
    Tracks inv origin [] ⟨origin, Renaming.identity origin.size, memory⟩ := by
  have none :
      (⟨origin, Renaming.identity origin.size, memory⟩ : Sweep σ).IsImage [] =
      fun _ => False := by
    funext a
    simp [IsImage]
  constructor
  · exact ordered
  · exact origin.le_refl
  · simp [Renaming.identity]
  · rw [none]
    exact ⟨fun _ => False.elim, fun _ => False.elim⟩
  · rw [none]
    exact holds

theorem Tracks.foldl {P : Ref → Prop} (steady : Steady rule inv)
    (inside : ∀ x, P x → x < origin.size) (tracks : Tracks inv origin [] s)
    (finishes : Graph.Finishes origin P [] done) :
    Tracks inv origin done (done.foldl (Sweep.step rule) s) := by
  refine finishes.foldl tracks ?_
  intro done s r _ tracks fresh operands property
  obtain ⟨n, found⟩ := Graph.get?_of_lt (inside r property)
  rw [Graph.operands_of_get? found] at operands
  exact tracks.step steady found fresh operands

end Sweep

namespace Program

variable {σ : Type} {rule : Graph → σ → Ref → Replacement × σ}
  {inv : Graph → (Ref → Prop) → σ → Prop} {memory : σ} {p : Program} {x : Ref}

theorem tracks_swept (steady : Steady rule inv) (ordered : p.Ordered)
    (start : inv p.graph (fun _ => False) memory) :
    Sweep.Tracks inv p.graph p.order (p.swept rule memory) :=
  (Sweep.Tracks.start ordered.graph start).foldl steady
    (fun _ needed => ordered.needs_lt needed) ordered.order_finishes.1

theorem ordered_sweepWith (ordered : p.Ordered)
    (tracks : Sweep.Tracks inv p.graph p.order (p.swept rule memory)) :
    (p.sweepWith rule memory).Ordered := by
  refine ⟨tracks.ordered, ?_⟩
  intro s mapped
  obtain ⟨r, member, rfl⟩ := List.mem_map.mp mapped
  exact tracks.closed.lt _ ⟨r, ordered.mem_order.mpr (.output member), rfl⟩

theorem isImage_of_needs (ordered : p.Ordered)
    (tracks : Sweep.Tracks inv p.graph p.order (p.swept rule memory))
    (needed : (p.sweepWith rule memory).Needs x) :
    (p.swept rule memory).IsImage p.order x := by
  induction needed with
  | output mapped =>
      obtain ⟨r, member, rfl⟩ := List.mem_map.mp mapped
      exact ⟨r, ordered.mem_order.mpr (.output member), rfl⟩
  | operand _ named image => exact tracks.closed.operand _ image _ named

/-- The program has a node for some of the nodes of another, and no others. -/
structure Within (p q : Program) : Prop where
  ordered : q.Ordered
  image : ∃ image : Ref → Ref, ∀ r, q.Needs r → ∃ x, p.Needs x ∧ image x = r

theorem within_sweepWith (ordered : p.Ordered)
    (tracks : Sweep.Tracks inv p.graph p.order (p.swept rule memory)) :
    p.Within (p.sweepWith rule memory) := by
  refine ⟨ordered_sweepWith ordered tracks, (p.swept rule memory).moved.apply,
    ?_⟩
  intro r needed
  obtain ⟨x, member, image⟩ := isImage_of_needs ordered tracks needed
  exact ⟨x, ordered.mem_order.mp member, image⟩

end Program
end VertexFetch
