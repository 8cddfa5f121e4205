import Mathlib.Data.List.Nodup
import VertexFetch.Proofs.Batch
import VertexFetch.Proofs.Layout
import VertexFetch.Proofs.Pass

namespace VertexFetch

theorem Fetch.place_inj {j k : Nat} (few : j < 128) (few' : k < 128)
    (same : place j = place k) : j = k := by
  obtain ⟨row, component⟩ := Target.row.inj same
  have row := congrArg UInt8.toNat row
  have component := congrArg UInt8.toNat component
  simp only [UInt8.toNat_ofNat'] at row component
  omega

theorem Target.nodup_all : Target.all.Nodup := by
  have rows : ((List.range 128).map Fetch.place).Nodup :=
    List.Nodup.map_on
      (fun j few k few' =>
        Fetch.place_inj (List.mem_range.mp few)
          (List.mem_range.mp few')) List.nodup_range
  refine List.nodup_cons.mpr ⟨?_, List.nodup_cons.mpr ⟨?_, rows⟩⟩
  · simp [Fetch.place]
  · simp [Fetch.place]

namespace Batch

def put (b : Batch) (target : Target) (x : Fin 8 → UInt32) : Batch :=
  (b.store? target (Vector.ofFn x)).getD b

def putAll (b : Batch) (outputs : List (Target × (Fin 8 → UInt32))) : Batch :=
  outputs.foldl (fun b output => b.put output.1 output.2) b

theorem store?_of_mem {target : Target} (member : target ∈ Target.all)
    (b : Batch) (x : Fin 8 → UInt32) :
    b.store? target (Vector.ofFn x) = some (b.put target x) := by
  have stored : (b.store? target (Vector.ofFn x)).isSome = true := by
    simp only [Target.all, List.mem_cons, List.mem_map, List.mem_range]
      at member
    rcases member with rfl | rfl | ⟨k, few, rfl⟩
    · rfl
    · rfl
    · have row : (UInt8.ofNat (k / 4)).toNat = k / 4 :=
        (UInt8.toNat_ofNat' ..).trans (Nat.mod_eq_of_lt (by omega))
      have component : (UInt8.ofNat (k % 4)).toNat = k % 4 :=
        (UInt8.toNat_ofNat' ..).trans (Nat.mod_eq_of_lt (by omega))
      rw [Fetch.place, store?, dif_pos ⟨by omega, by omega⟩]
      rfl
  obtain ⟨next, same⟩ := Option.isSome_iff_exists.mp stored
  rw [put, same, Option.getD_some]

theorem read?_put {target : Target} (member : target ∈ Target.all) (b : Batch)
    (x : Fin 8 → UInt32) (other : Target) :
    (b.put target x).read? other =
      if other = target then some (Vector.ofFn x) else b.read? other :=
  read?_store? (store?_of_mem member b x) other

theorem read?_putAll_of_not_mem {outputs : List (Target × (Fin 8 → UInt32))}
    (targets : ∀ output ∈ outputs, output.1 ∈ Target.all) {target : Target}
    (absent : ∀ output ∈ outputs, target ≠ output.1) (b : Batch) :
    (b.putAll outputs).read? target = b.read? target := by
  induction outputs generalizing b with
  | nil => rfl
  | cons output rest induction =>
      have later :=
        induction (fun o member => targets o (List.mem_cons_of_mem _ member))
          (fun o member => absent o (List.mem_cons_of_mem _ member))
            (b.put output.1 output.2)
      rw [putAll, List.foldl_cons]
      refine later.trans ?_
      rw [read?_put (targets output List.mem_cons_self),
        if_neg (absent output List.mem_cons_self)]

theorem read?_putAll {outputs : List (Target × (Fin 8 → UInt32))}
    (targets : (outputs.map Prod.fst).Sublist Target.all) {target : Target}
    {x : Fin 8 → UInt32} (member : (target, x) ∈ outputs) (b : Batch) :
    (b.putAll outputs).read? target = some (Vector.ofFn x) := by
  have listed : ∀ output ∈ outputs, output.1 ∈ Target.all :=
    fun output member =>
    targets.subset (List.mem_map_of_mem member)
  have distinct := Target.nodup_all.sublist targets
  clear targets
  induction outputs generalizing b with
  | nil => cases member
  | cons output rest induction =>
      obtain ⟨fresh, distinct⟩ := List.nodup_cons.mp distinct
      have later : ∀ o ∈ rest, o.1 ∈ Target.all := fun o member =>
        listed o (List.mem_cons_of_mem _ member)
      rw [putAll, List.foldl_cons]
      rcases List.mem_cons.mp member with rfl | member
      · have absent : ∀ o ∈ rest, target ≠ o.1 := by
          rintro o follows rfl
          have again : o.1 ∈ rest.map Prod.fst := List.mem_map_of_mem follows
          exact fresh again
        refine (read?_putAll_of_not_mem later absent _).trans ?_
        rw [read?_put (listed _ List.mem_cons_self), if_pos rfl]
      · exact induction member _ later distinct

end Batch

namespace Graph

variable {g : Graph} {C : Call → Prop} {stores : List Ref}
  {writes : List (Target × Ref)} {outputs : List (Target × (Fin 8 → UInt32))}
  {call : Call}

theorem lt_of_records (records : g.Records stores writes) :
    ∀ r ∈ stores, r < g.size := by
  induction records with
  | nil => exact List.forall_mem_nil _
  | cons found _ rest => exact List.forall_mem_cons.mpr ⟨get?_lt found, rest⟩

theorem effect_of_known {r : Ref} {write : Target × Ref} {x : Fin 8 → UInt32}
    (found : g.get? r = some (.store write.1 write.2))
    (holds : g.Holds C write.2 x) (inside : C call)
    (target : write.1 ∈ Target.all) (batch : Batch) :
    g.effect call r batch = .ok (batch.put write.1 x) := by
  rw [effect_of_store found, (holds call inside).2, Except.bind,
    Batch.store?_of_mem target]

theorem foldlM_effect (records : g.Records stores writes)
    (delivers : Fetch.Delivers g C writes outputs) (inside : C call)
    (targets : ∀ write ∈ writes, write.1 ∈ Target.all) (batch : Batch) :
    stores.foldlM (fun batch r => g.effect call r batch) batch =
      .ok (batch.putAll outputs) := by
  induction records generalizing batch outputs with
  | nil =>
      cases delivers
      rfl
  | @cons r write stores writes found _ rest =>
      obtain - | ⟨⟨target, holds⟩, others⟩ := delivers
      rw [List.foldlM_cons,
        effect_of_known found holds inside (targets _ List.mem_cons_self) batch,
        target]
      exact rest others
        (fun write member => targets write (List.mem_cons_of_mem _ member)) _

end Graph

namespace Program

variable {p : Program} {C : Call → Prop} {writes : List (Target × Ref)}
  {outputs : List (Target × (Fin 8 → UInt32))} {call : Call}

theorem targets_of_records {g : Graph} {stores : List Ref}
    (records : g.Records stores writes) :
    stores.map g.target? = writes.map fun write => some write.1 := by
  induction records with
  | nil => rfl
  | cons found _ rest =>
      rw [List.map_cons, List.map_cons, rest,
        Graph.target?_eq_some.mpr ⟨_, found⟩]

theorem storesOnce_of_records (records : p.graph.Records p.outputs writes)
    (distinct : (writes.map Prod.fst).Nodup) : p.StoresOnce := by
  have targets := targets_of_records records
  refine ⟨?_, ?_⟩
  · intro r member
    have listed : p.graph.target? r ∈ writes.map fun write => some write.1 :=
      targets ▸ List.mem_map_of_mem member
    obtain ⟨write, _, same⟩ := List.mem_map.mp listed
    exact ⟨write.1, same.symm⟩
  · have twice : (writes.map fun write => some write.1) =
        (writes.map Prod.fst).map some := by
      rw [List.map_map]
      rfl
    rw [targets, twice]
    exact distinct.map fun _ _ => Option.some.inj

theorem wellFormed_of_records (formed : p.graph.WellFormed)
    (records : p.graph.Records p.outputs writes) : p.WellFormed :=
  ⟨formed, Graph.lt_of_records records⟩

theorem run_optimized (formed : p.graph.WellFormed)
    (records : p.graph.Records p.outputs writes)
    (targets : (writes.map Prod.fst).Sublist Target.all)
    (delivers : Fetch.Delivers p.graph C writes outputs) (inside : C call)
    (passes : List Pass) (batch : Batch) :
    ∃ last, (p.optimize passes).1.lower.run call batch = (last, none) ∧
      last.batch = batch.putAll outputs := by
  have listed : ∀ write ∈ writes, write.1 ∈ Target.all := fun write member =>
    targets.subset (List.mem_map_of_mem member)
  have each : ∀ r ∈ p.outputs, ∃ (write : Target × Ref) (x : Fin 8 → UInt32),
      p.graph.get? r = some (.store write.1 write.2) ∧
      p.graph.Holds C write.2 x ∧
        write.1 ∈ Target.all := by
    intro r member
    obtain ⟨i, rfl⟩ := List.mem_iff_get.mp member
    obtain ⟨length, found⟩ := List.forall₂_iff_get.mp records
    obtain ⟨length', known⟩ := List.forall₂_iff_get.mp delivers
    have inside : i.val < writes.length := Nat.lt_of_lt_of_eq i.isLt length
    exact ⟨_, _, found i i.isLt inside,
      (known i inside (Nat.lt_of_lt_of_eq inside length')).2,
      listed _ (List.get_mem _ _)⟩
  have once := storesOnce_of_records records (Target.nodup_all.sublist targets)
  have wellFormed := wellFormed_of_records formed records
  have sound : p.Sound call := by
    intro r member a named
    obtain ⟨write, x, found, holds, _⟩ := each r member
    rw [Graph.operands_of_get? found] at named
    obtain rfl := List.mem_singleton.mp named
    exact (holds call inside).1
  have stores : ∀ r ∈ p.outputs, p.graph.Evaluates call r := by
    intro r member
    obtain ⟨write, x, found, holds, target⟩ := each r member
    exact Graph.evaluates_of_effect found
      (Graph.effect_of_known found holds inside target batch)
  obtain ⟨last, ran, effects⟩ :=
    (kept_optimize passes wellFormed once).run_lower once sound stores batch
  rw [Graph.foldlM_effect records delivers inside listed] at effects
  exact ⟨last, ran, (Except.ok.inj effects).symm⟩

end Program

namespace Layout

variable {l : Layout} {k : Kernel}

def program (l : Layout) : Program := (l.emit.run {}).2.program

theorem compile_eq_ok (compiled : l.compile = .ok k) :
    (l.emit.run {}).1 = .ok () ∧
      k.code = (l.program.optimize Pass.schedule).1.lower := by
  unfold compile compileReporting at compiled
  split at compiled
  next => cases compiled
  next draft run =>
    cases compiled
    rw [program, run]
    exact ⟨rfl, rfl⟩

theorem width_of_compile (compiled : l.compile = .ok k) :
    k.width = l.width := by
  unfold compile compileReporting at compiled
  split at compiled
  next => cases compiled
  next =>
    cases compiled
    rfl

theorem program_records (compiled : l.compile = .ok k) :
    ∃ writes, l.program.graph.WellFormed ∧
      l.program.graph.Records l.program.outputs writes ∧
      (writes.map Prod.fst).Sublist Target.all ∧
      ∀ v streams reach, l.Ready v streams reach →
        Fetch.Delivers l.program.graph (v.Shows streams reach) writes
          (l.outputs v) := by
  obtain ⟨_, does⟩ := emit_does l {}
  obtain ⟨grown, holds⟩ := does () (compile_eq_ok compiled).1
  obtain ⟨formed, _⟩ := grown.formed Graph.wellFormed_empty (by simp)
  obtain ⟨stores, writes, appended, records, targets, delivers⟩ :=
    holds _ (Graph.le_refl _)
  obtain rfl : stores = l.program.outputs :=
    (appended.trans (List.nil_append _)).symm
  exact ⟨writes, formed, records, targets,
    fun v streams reach => delivers v streams reach formed⟩

/-- A compiled fetch finds no fault in a call that has what the view shows, and
leaves what the layout says of the view. -/
theorem fetch_eq (compiled : l.compile = .ok k) {v : View}
    {streams : UInt8 → Prop} {reach : Nat} (ready : l.Ready v streams reach)
    {call : Call} (shows : v.Shows streams reach call) (batch : Batch) :
    k.fetch call batch = (batch.putAll (l.outputs v), none) := by
  obtain ⟨writes, formed, records, targets, delivers⟩ :=
    program_records compiled
  obtain ⟨last, ran, left⟩ := Program.run_optimized formed records targets
    (delivers v streams reach ready) shows Pass.schedule batch
  rw [Kernel.fetch, (compile_eq_ok compiled).2, ran, ← left]

theorem targets_outputs (compiled : l.compile = .ok k) {v : View}
    {streams : UInt8 → Prop} {reach : Nat} (ready : l.Ready v streams reach) :
    ((l.outputs v).map Prod.fst).Sublist Target.all := by
  obtain ⟨writes, _, _, targets, delivers⟩ := program_records compiled
  have pairs : (writes.map Prod.fst).Forall₂ Eq ((l.outputs v).map Prod.fst) :=
    List.forall₂_map_left_iff.mpr (List.forall₂_map_right_iff.mpr
      ((delivers v streams reach ready).imp fun _ _ delivered => delivered.1))
  rw [List.forall₂_eq_eq_eq] at pairs
  rwa [← pairs]

theorem vertexId_putAll (compiled : l.compile = .ok k) {v : View}
    {streams : UInt8 → Prop} {reach : Nat} (ready : l.Ready v streams reach)
    (batch : Batch) :
    (batch.putAll (l.outputs v)).vertexId =
      Vector.ofFn (v.indices l.width l.checked) :=
  Option.some.inj
    (Batch.read?_putAll
      (targets_outputs compiled ready) List.mem_cons_self batch)

end Layout
end VertexFetch
