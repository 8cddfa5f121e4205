import VertexFetch.Proofs.Pass.Merging
import VertexFetch.Proofs.Stores

/-! Sharing and the order of stores. Stores that are the same become one, whose
place is that of the first: a store that is repeated after another one to its
target no longer comes last. -/

namespace VertexFetch

theorem eraseDups_filter (keep : Ref → Bool) (rs : List Ref) :
    (rs.filter keep).eraseDups = rs.eraseDups.filter keep := by
  induction rs using List.reverseRecOn with
  | nil => rfl
  | append_singleton rs r induction =>
      rw [List.filter_append, List.eraseDups_append, List.eraseDups_append,
        List.filter_append, induction]
      by_cases kept : keep r = true <;> by_cases member : r ∈ rs <;>
        simp [List.removeAll, List.eraseDups_cons, kept, member]

namespace Graph

open Classical in
/-- The nodes of a list without those that are the same as one before them. -/
noncomputable def firsts (g : Graph) : List Ref → List Ref
  | [] => []
  | r :: rest => r :: (g.firsts rest).filter fun s => ¬g.Same r s

variable {g h : Graph} {call : Call} {f : Ref → Ref} {rs : List Ref}

theorem firsts_sublist (g : Graph) (rs : List Ref) :
    (g.firsts rs).Sublist rs := by
  induction rs with
  | nil => exact .slnil
  | cons r rest induction =>
      exact (List.filter_sublist.trans induction).cons_cons r

theorem eraseDups_map (images : ∀ r ∈ rs, ∀ s ∈ rs, f r = f s ↔ g.Same r s) :
    (rs.map f).eraseDups = (g.firsts rs).map f := by
  induction rs with
  | nil => rfl
  | cons r rest induction =>
      have before : (rest.map f).eraseDups = (g.firsts rest).map f := by
        apply induction
        intro x member y member'
        exact images x (List.mem_cons_of_mem _ member) y
          (List.mem_cons_of_mem _ member')
      rw [List.map_cons, List.eraseDups_cons, eraseDups_filter, before,
        List.filter_map, firsts, List.map_cons]
      refine congrArg (fun list => f r :: List.map f list)
        (List.filter_congr ?_)
      intro s member
      have later : s ∈ rest := (g.firsts_sublist rest).subset member
      have same : f s = f r ↔ g.Same r s :=
        eq_comm.trans
          (images r List.mem_cons_self s (List.mem_cons_of_mem _ later))
      by_cases equal : f s = f r
      · simp [equal, same.mp equal]
      · simp [equal, mt same.mpr equal]

theorem left?_map (carried : ∀ r ∈ rs, h.target? (f r) = g.target? r ∧
      h.stored call (f r) = g.stored call r) (batch : Batch) (target : Target) :
    h.left? call (rs.map f) batch target = g.left? call rs batch target := by
  have last : h.lastStore? (rs.map f) target =
      (g.lastStore? rs target).map f := by
    unfold lastStore?
    rw [List.filter_map, List.getLast?_map]
    refine congrArg (fun list => (List.getLast? list).map f)
      (List.filter_congr ?_)
    intro r member
    simp only [Function.comp_apply, (carried r member).1]
  rw [left?, left?, last]
  cases found : g.lastStore? rs target with
  | none => rfl
  | some r =>
      have member : r ∈ rs :=
        (List.mem_filter.mp (List.mem_of_getLast? found)).1
      exact congrArg Except.toOption (carried r member).2

theorem nodup_lastStores
    (store : ∀ r ∈ rs, ∃ target, g.target? r = some target) :
    (g.lastStores rs).Nodup := by
  induction rs with
  | nil => exact .nil
  | cons r rest induction =>
      have nodup := induction fun s member =>
        store s (List.mem_cons_of_mem _ member)
      rw [lastStores_cons]
      split
      next => exact nodup
      next last =>
        refine List.nodup_cons.mpr ⟨?_, nodup⟩
        intro member
        obtain ⟨target, found⟩ := store r List.mem_cons_self
        have later := (g.lastStores_sublist rest).subset member
        exact last ⟨target, found, List.mem_filterMap.mpr ⟨r, later, found⟩⟩

theorem NodeKept.stored {r s : Ref} (kept : NodeKept g h r s) {target : Target}
    (store : g.target? r = some target)
    (sound : ∀ a ∈ g.operands r, g.Sound call a) :
    h.stored call s = g.stored call r := by
  cases kept with
  | value value _ =>
      obtain ⟨op, found⟩ := value
      simp [Graph.target?, op?_eq_some.mp found, Node.target?] at store
  | store found found' value =>
      rw [operands_of_get? found] at sound
      simp only [Graph.stored, found, found']
      exact (value.sound call (sound _ (by simp [Node.operands]))).2

end Graph

theorem Code.numeric_of_no_product {code : Code} {call : Call} {batch : Batch}
    (none : ∀ out a b, .compute out (.binary .mulSingle a b) ∉ code.instrs) :
    code.Numeric call batch := by
  intro k out a b now v instr
  exact absurd (List.mem_of_getElem? instr) (none out a b)

namespace Program

variable {p : Program} {call : Call} {batch : Batch} {last : Machine}

theorem sound_of_run_lower (formed : p.WellFormed)
    (ran : p.lower.run call batch = (last, none))
    (numeric : p.lower.Numeric call batch) : p.Sound call := by
  intro r member a named
  obtain ⟨n, found⟩ := Graph.get?_of_lt (formed.output_lt r member)
  have value :=
    formed.graph.operand r n found a (by rwa [← Graph.operands_of_get? found])
  exact sound_of_run formed ran numeric (.operand (.output member) named) value

theorem DistinctStores.carried_share (distinct : p.DistinctStores)
    (formed : p.WellFormed) (sound : p.Sound call) : ∀ r ∈ p.outputs,
      p.share.graph.target? (p.merged r) = p.graph.target? r ∧
        p.share.graph.stored call (p.merged r) = p.graph.stored call r := by
  intro r member
  have node := nodeKept_merged formed (.output member)
  obtain ⟨target, store⟩ := distinct.store r member
  exact ⟨node.target?, node.stored store (sound r member)⟩

theorem DistinctStores.store_share (distinct : p.DistinctStores)
    (formed : p.WellFormed) :
    ∀ s ∈ p.share.outputs, ∃ target, p.share.graph.target? s = some target := by
  intro s mapped
  rw [outputs_share] at mapped
  obtain ⟨r, member, rfl⟩ := List.mem_map.mp mapped
  rw [(nodeKept_merged formed (.output member)).target?]
  exact distinct.store r member

theorem DistinctStores.read?_run_share (distinct : p.DistinctStores)
    (formed : p.WellFormed) (sound : p.Sound call)
    (ran : p.share.lower.run call batch = (last, none)) (target : Target) :
    last.batch.read? target =
      p.graph.left? call (p.graph.firsts p.outputs) batch target := by
  have images : ∀ r ∈ p.outputs, ∀ s ∈ p.outputs, p.merged r = p.merged s ↔
      p.graph.Same r s :=
    fun r member s member' =>
      merged_eq_iff formed (.output member) (.output member')
  rw [Program.read?_run_lower (kept_share formed).formed
    (distinct.store_share formed) ran, outputs_share,
    Graph.eraseDups_map images]
  refine Graph.left?_map ?_ batch target
  intro r member
  exact distinct.carried_share formed sound r
    ((p.graph.firsts_sublist p.outputs).subset member)

theorem DistinctStores.read?_run_share_dropDeadStores
    (distinct : p.DistinctStores) (formed : p.WellFormed) (sound : p.Sound call)
    (ran : p.share.dropDeadStores.lower.run call batch = (last, none))
    (target : Target) :
    last.batch.read? target = p.graph.left? call p.outputs batch target := by
  have store := distinct.store_share formed
  have alive : p.share.dropDeadStores.DistinctStores := by
    refine ⟨?_, Graph.nodup_lastStores store⟩
    intro s member
    exact store s
      ((p.share.graph.lastStores_sublist p.share.outputs).subset member)
  rw [alive.read?_run_lower (kept_share formed).formed.dropDeadStores ran]
  exact (Graph.left?_lastStores _ call _ batch target).trans
    (Graph.left?_map (distinct.carried_share formed sound) batch target)

/-- After sharing, a run leaves at each target what the last store to it puts
there that is not the same as one before. So the batch is the one that a run
left before sharing just if at each target this is what the last store of all
puts there. Once the dead stores are dropped too, it always is. -/
theorem share_leaves_last_first (formed : p.WellFormed)
    (distinct : p.DistinctStores) (ran : p.lower.run call batch = (last, none))
    (numeric : p.lower.Numeric call batch) :
    ∃ last', p.share.lower.run call batch = (last', none) ∧
      (∀ target, last'.batch.read? target =
        p.graph.left? call (p.graph.firsts p.outputs) batch target) ∧
      (last'.batch = last.batch ↔ ∀ target,
        p.graph.left? call (p.graph.firsts p.outputs) batch target =
          p.graph.left? call p.outputs batch target) ∧
      ∃ last'', p.share.dropDeadStores.lower.run call batch = (last'', none) ∧
        last''.batch = last.batch := by
  have sound := sound_of_run_lower formed ran numeric
  have kept := kept_share formed
  have evaluates : ∀ s, p.share.Needs s → p.share.graph.Evaluates call s :=
    fun _ needed =>
    kept.evaluates distinct.store sound
      (fun r member => evaluates_of_run_lower formed ran (.output member))
        needed
  obtain ⟨last', ran', _⟩ := run_lower_of_evaluates kept.formed batch evaluates
  obtain ⟨last'', ran'', _⟩ :=
    run_lower_of_evaluates kept.formed.dropDeadStores batch
    fun s needed => evaluates s needed.of_dropDeadStores
  have before := distinct.read?_run_lower formed ran
  have after := distinct.read?_run_share formed sound ran'
  refine ⟨last', ran', after, ⟨?_, ?_⟩, last'', ran'', Batch.ext_read? ?_⟩
  · intro same target
    rw [← after, same, before]
  · intro same
    apply Batch.ext_read?
    intro target
    rw [after, same, before]
  · intro target
    rw [distinct.read?_run_share_dropDeadStores formed sound ran'', before]

/-- A sum is stored twice, its terms exchanged, after something else was stored
there. -/
def repeated : Program where
  graph :=
    ⟨#[.value (.argument .startVertex), .value (.word 2),
      .value (.binary .add 0 1),
    .value (.binary .add 1 0), .store .vertexId 1, .store .vertexId 2,
    .store (.row 0 1) 1, .store .vertexId 3]⟩
  outputs := [4, 5, 6, 7]

def repeatedCode : Code where
  instrs :=
    [.compute 0 (.word 2), .store .vertexId 0,
      .compute 1 (.argument .startVertex),
    .compute 2 (.binary .add 1 0), .store .vertexId 2, .store (.row 0 1) 0,
    .compute 2 (.binary .add 0 1), .store .vertexId 2]
  registers := 3

theorem repeated_lower : repeated.lower = repeatedCode := by
  cbv

theorem repeated_formed : repeated.WellFormed := by
  decide

theorem repeated_distinct : repeated.DistinctStores := by
  decide

theorem repeated_run : ∃ last,
    repeated.lower.run { startVertex := 5 } (Batch.filled 0) = (last, none) ∧
      last.batch.vertexId = .splat 7 := by
  rw [repeated_lower]
  exact ⟨_, Prod.ext rfl (by decide +kernel), by decide +kernel⟩

theorem repeated_numeric :
    repeated.lower.Numeric { startVertex := 5 } (Batch.filled 0) := by
  rw [repeated_lower]
  exact Code.numeric_of_no_product (by simp [repeatedCode])

theorem repeated_same_iff {r s : Ref} (member : r ∈ repeated.outputs)
    (member' : s ∈ repeated.outputs) :
    repeated.graph.Same r s ↔ repeated.merged r = repeated.merged s :=
  (merged_eq_iff repeated_formed (.output member) (.output member')).symm

theorem repeated_firsts :
    repeated.graph.firsts repeated.outputs = [4, 5, 6] := by
  have outputs : repeated.outputs = [4, 5, 6, 7] := rfl
  have four : repeated.merged 4 = 4 := by cbv
  have five : repeated.merged 5 = 5 := by cbv
  have six : repeated.merged 6 = 6 := by cbv
  have seven : repeated.merged 7 = 5 := by cbv
  simp [outputs, Graph.firsts, repeated_same_iff, four, five, six, seven]

theorem share_leaves_last_first_repeated :
    repeated.WellFormed ∧ repeated.DistinctStores ∧
      repeated.lower.Numeric { startVertex := 5 } (Batch.filled 0) ∧
      repeated.graph.firsts repeated.outputs = [4, 5, 6] ∧
      ∃ last last',
        repeated.lower.run { startVertex := 5 } (Batch.filled 0) =
          (last, none) ∧
        repeated.share.lower.run { startVertex := 5 } (Batch.filled 0) =
          (last', none) ∧
        last'.batch = last.batch ∧ last'.batch.vertexId = .splat 7 := by
  obtain ⟨last, ran, stored⟩ := repeated_run
  obtain ⟨last', ran', _, same, _⟩ :=
    share_leaves_last_first repeated_formed repeated_distinct ran
      repeated_numeric
  have unchanged : last'.batch = last.batch := by
    refine same.mpr ?_
    intro target
    have outputs : repeated.outputs = [4, 5, 6] ++ [7] := rfl
    rw [repeated_firsts, outputs, Graph.left?_append_singleton]
    split
    next here =>
      obtain rfl : Target.vertexId = target := Option.some.inj here
      decide +kernel
    next => rfl
  exact ⟨repeated_formed, repeated_distinct, repeated_numeric, repeated_firsts,
    last, last', ran, ran', unchanged, by rw [unchanged, stored]⟩

def restored : Program where
  graph :=
    ⟨#[.value (.word 1), .value (.word 2), .store .vertexId 0,
      .store .vertexId 1,
    .store .vertexId 0]⟩
  outputs := [2, 3, 4]

theorem restored_lower :
    restored.lower = ⟨[.compute 0 (.word 1), .store .vertexId 0,
    .compute 1 (.word 2), .store .vertexId 1, .store .vertexId 0], 2⟩ := by
  cbv

theorem restored_share_lower :
    restored.share.lower =
      ⟨[.compute 0 (.word 1), .store .vertexId 0, .compute 0 (.word 2),
        .store .vertexId 0], 1⟩ := by
  cbv

/-- Sharing alone loses a store that is made again. -/
theorem share_loses_last_store :
    restored.WellFormed ∧ restored.DistinctStores ∧
      restored.lower.Numeric {} (Batch.filled 0) ∧
      ∃ last last', restored.lower.run {} (Batch.filled 0) = (last, none) ∧
        restored.share.lower.run {} (Batch.filled 0) = (last', none) ∧
        last.batch.vertexId = .splat 1 ∧ last'.batch.vertexId = .splat 2 := by
  refine ⟨by decide, by decide, ?_, ?_⟩
  · rw [restored_lower]
    exact Code.numeric_of_no_product (by simp)
  · rw [restored_lower, restored_share_lower]
    exact ⟨_, _, Prod.ext rfl (by decide +kernel),
      Prod.ext rfl (by decide +kernel),
      by decide +kernel, by decide +kernel⟩

end Program
end VertexFetch
