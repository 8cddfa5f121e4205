import Mathlib.Logic.Function.Basic
import VertexFetch.Proofs.Bounds

namespace VertexFetch

theorem Fetch.placements_map {α β : Type} (f : α → β) (n : Nat)
    (values : List (Option α)) :
    (placements n values).map (fun entry => (entry.1, f entry.2)) =
      placements n (values.map (Option.map f)) := by
  induction values generalizing n with
  | nil => rfl
  | cons value? values induction =>
      cases value? with
      | none => exact induction (n + 1)
      | some x => exact congrArg (List.cons (place n, f x)) (induction (n + 1))

namespace View

/-- The views show the same but for the indices. -/
structure SameVertices (v w : View) : Prop where
  argument : ∀ a, a ≠ .lastIndex → v.argument a = w.argument a
  field : v.field = w.field
  word : v.word = w.word

namespace SameVertices

variable {v w : View}

theorem current (same : v.SameVertices w) (index : UInt32) (rate : Rate) :
    v.current index rate = w.current index rate := by
  cases rate with
  | perVertex =>
      rw [View.current, View.current, same.argument .baseVertex (by decide)]
  | perInstance step =>
      rw [View.current, View.current, same.argument .instanceId (by decide)]

theorem start (same : v.SameVertices w) (rate : Rate) :
    v.start rate = w.start rate := by
  cases rate with
  | perVertex => exact same.argument .startVertex (by decide)
  | perInstance step => exact same.argument .startInstance (by decide)

theorem gathered (same : v.SameVertices w) (a : Attribute) (c : Fin 4)
    (index : UInt32) : v.gathered a c index = w.gathered a c index := by
  unfold View.gathered gatheredWord
  rw [same.field, same.word, same.current, same.start]

theorem loaded (same : v.SameVertices w) (a : Attribute) (checked : Bool)
    (c : Fin 4) (index : UInt32) :
    v.loaded a checked c index = w.loaded a checked c index := by
  unfold View.loaded mayLoad
  rw [same.field, same.word, same.argument .startVertex (by decide)]

theorem component? (same : v.SameVertices w) (a : Attribute)
    (index : Fin 8 → UInt32)
    (c : Fin 4) : v.component? a index c = w.component? a index c := by
  unfold View.component?
  simp only [same.gathered]

theorem loadedComponent (same : v.SameVertices w) (a : Attribute)
    (checked : Bool) (index : Fin 8 → UInt32) (c : Fin 4) :
    v.loadedComponent a checked index c =
      w.loadedComponent a checked index c := by
  funext i
  unfold View.loadedComponent
  rw [same.loaded]

end SameVertices

theorem component?_lane (v : View) (a : Attribute) (index : Fin 8 → UInt32)
    (c : Fin 4) (i j : Fin 8) :
    (v.component? a index c).map (fun x => x i) =
      (v.component? a (fun _ => index i) c).map fun x => x j := by
  unfold component?
  cases a.sources.get c
  all_goals simp only [Option.map_none, Option.map_some]

end View

namespace Layout

/-- What lane `i` stores where if it has the given index. -/
def vertex (l : Layout) (v : View) (index : UInt32) (i : Fin 8) :
    List (Target × UInt32) :=
  (.vertexId, index) ::
    (l.cut.toList.map fun cut => (.cutMask, Word.ofBool (index = cut))) ++
    match l.strategy with
    | .linear => l.attributes.zipIdx.flatMap fun entry =>
        (List.finRange 4).map fun c =>
        (.row (UInt8.ofNat entry.2) (UInt8.ofNat c.val),
          v.loadedComponent entry.1 l.checked (fun _ => index) c i)
    | .gather => Fetch.placements 0 (l.packed.map fun entry =>
        (v.component? entry.1 (fun _ => index) entry.2).map fun x => x i)

theorem outputs_lane (l : Layout) (v : View) (i : Fin 8) :
    (l.outputs v).map (fun output => (output.1, output.2 i)) =
      l.vertex v (v.indices l.width l.checked i) i := by
  unfold outputs attributeOutputs vertex
  rw [List.map_append, List.map_cons, List.map_map]
  cases l.strategy with
  | linear =>
      dsimp only
      rw [List.map_flatMap]
      simp only [View.loadedRow, List.map_map]
      rfl
  | gather =>
      dsimp only
      rw [Fetch.placements_map fun x : Fin 8 → UInt32 => x i, List.map_map]
      simp only [Function.comp_def, View.component?_lane v _ _ _ i i]

theorem vertex_lane (l : Layout) (v : View) (index : UInt32) (i j : Fin 8) :
    l.vertex v index i = l.vertex v index j := by
  unfold vertex
  simp only [View.component?_lane v _ (fun _ => index) _ i j]
  rfl

theorem vertex_congr (l : Layout) {v w : View} (same : v.SameVertices w)
    (index : UInt32) (i : Fin 8) : l.vertex v index i = l.vertex w index i := by
  unfold vertex
  simp only [same.component?, same.loadedComponent]

end Layout

namespace Batch

def lane (b : Batch) (i : Fin 8) (target : Target) : Option UInt32 :=
  (b.read? target).map fun v => v.get i

theorem ext_lane {b b' : Batch} (same : ∀ i, b.lane i = b'.lane i) :
    b = b' := by
  apply ext_read?
  intro target
  have each (i : Fin 8) := congrFun (same i) target
  unfold lane at each
  cases found : b.read? target with
  | none =>
      rw [found] at each
      exact (Option.map_eq_none_iff.mp (each 0).symm).symm
  | some v =>
      cases found' : b'.read? target with
      | none =>
          rw [found, found'] at each
          cases each 0
      | some v' =>
          rw [found, found'] at each
          exact congrArg some (Lanes.ext_get fun i => Option.some.inj (each i))

theorem lane_filled (w : UInt32) (i j : Fin 8) :
    (filled w).lane i = (filled w).lane j := by
  funext target
  cases target with
  | vertexId => simp only [lane, read?, filled, Option.map_some, Lanes.get_zero]
  | cutMask => simp only [lane, read?, filled, Option.map_some, Lanes.get_zero]
  | row element component =>
      simp only [lane, read?, filled, Vector.getElem?_replicate]
      split
      next =>
        rw [Option.bind_some, Vector.getElem?_replicate]
        split
        next => simp only [Option.map_some, Lanes.get_splat]
        next => rfl
      next => rfl

def writeLane (lane : Target → Option UInt32) (words : List (Target × UInt32)) :
    Target → Option UInt32 :=
  words.foldl (fun lane word => Function.update lane word.1 (some word.2)) lane

theorem lane_put {target : Target} (member : target ∈ Target.all) (b : Batch)
    (x : Fin 8 → UInt32) (i : Fin 8) :
    (b.put target x).lane i =
      Function.update (b.lane i) target (some (x i)) := by
  funext other
  rw [lane, read?_put member, Function.update_apply]
  split
  next => rw [Option.map_some, Lanes.get_ofFn]
  next => rfl

theorem lane_putAll {outputs : List (Target × (Fin 8 → UInt32))}
    (listed : ∀ output ∈ outputs, output.1 ∈ Target.all) (b : Batch)
    (i : Fin 8) : (b.putAll outputs).lane i =
      writeLane (b.lane i)
        (outputs.map fun output => (output.1, output.2 i)) := by
  induction outputs generalizing b with
  | nil => rfl
  | cons output outputs induction =>
      have rest :=
        induction (fun o member => listed o (List.mem_cons_of_mem _ member))
          (b.put output.1 output.2)
      rw [lane_put (listed output List.mem_cons_self)] at rest
      exact rest

end Batch

namespace Layout

variable {l : Layout} {k : Kernel} {call : Call}

/-- What a fetch leaves in lane `i` of a cleared batch, given the index of the
lane. -/
def lane (l : Layout) (v : View) (index : UInt32) (i : Fin 8) :
    Target → Option UInt32 :=
  Batch.writeLane ((Batch.filled 0).lane i) (l.vertex v index i)

theorem lane_eq_lane (l : Layout) (v : View) (index : UInt32) (i j : Fin 8) :
    l.lane v index i = l.lane v index j := by
  rw [lane, lane, l.vertex_lane v index i j, Batch.lane_filled 0 i j]

theorem lane_congr (l : Layout) {v w : View} (same : v.SameVertices w)
    (index : UInt32) (i : Fin 8) : l.lane v index i = l.lane w index i := by
  rw [lane, lane, l.vertex_congr same]

theorem fetch_lanes (compiled : l.compile = .ok k) (checked : l.checked = true)
    (indices : call.lastIndex ≤ call.indices.size)
    (binds : ∀ s, l.Needs s → call.Binds s) :
    ∃ out, k.fetch call (.filled 0) = (out, none) ∧
      ∀ i, out.lane i =
        l.lane call.view (call.view.indices l.width true i) i := by
  refine ⟨_, fetch_eq_of_checked compiled checked indices binds (.filled 0), ?_⟩
  intro i
  have listed : ∀ output ∈ l.outputs call.view, output.1 ∈ Target.all :=
    fun output member =>
    (targets_outputs compiled (ready_of_checked checked)).subset
      (List.mem_map_of_mem member)
  rw [Batch.lane_putAll listed, outputs_lane, checked]
  rfl

end Layout
end VertexFetch
