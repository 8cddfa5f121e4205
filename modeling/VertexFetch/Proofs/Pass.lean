import VertexFetch.Kernel
import VertexFetch.Proofs.Graph.Lowering
import VertexFetch.Proofs.Pass.DeadStores
import VertexFetch.Proofs.Pass.Folding
import VertexFetch.Proofs.Pass.Promotion
import VertexFetch.Proofs.Pass.Selects
import VertexFetch.Proofs.Pass.Sharing

namespace VertexFetch

theorem Graph.Sound.evaluates {g : Graph} {call : Call} {r : Ref}
    (sound : g.Sound call r) : g.Evaluates call r :=
  ⟨fun _ => sound.value,
    fun batch => ⟨batch, Graph.effect_of_isValue sound.isValue call batch⟩⟩

theorem eraseDups_of_nodup {rs : List Ref} (distinct : rs.Nodup) :
    rs.eraseDups = rs := by
  induction rs with
  | nil => rfl
  | cons r rest induction =>
      rw [List.nodup_cons] at distinct
      have others : (rest.filter fun s => !s == r) = rest := by
        rw [List.filter_eq_self]
        intro s member
        simp only [Bool.not_eq_true', beq_eq_false_iff_ne]
        intro same
        exact distinct.1 (same ▸ member)
      rw [List.eraseDups_cons, others, induction distinct.2]

theorem foldlM_congr {α β ε : Type} {f g : β → α → Except ε β} {as : List α}
    (same : ∀ a ∈ as, ∀ b, f b a = g b a) (b : β) :
    as.foldlM f b = as.foldlM g b := by
  induction as generalizing b with
  | nil => rfl
  | cons a rest induction =>
      rw [List.foldlM_cons, List.foldlM_cons, same a List.mem_cons_self]
      exact congrArg _
        (funext (induction fun a member =>
          same a (List.mem_cons_of_mem _ member)))

namespace Program

variable {p q : Program} {call : Call} {batch : Batch}

/-- All that the outputs store is sound. -/
def Sound (p : Program) (call : Call) : Prop :=
  ∀ r ∈ p.outputs, ∀ a ∈ p.graph.operands r, p.graph.Sound call a

theorem StoresOnce.outputs_nodup (once : p.StoresOnce) : p.outputs.Nodup := by
  refine List.Pairwise.imp ?_ (List.pairwise_map.mp once.nodup)
  intro r s distinct same
  exact distinct (congrArg _ same)

theorem filter_isStore_outputs
    (store : ∀ r ∈ p.outputs, ∃ target, p.graph.target? r = some target) :
    p.outputs.filter p.graph.isStore = p.outputs := by
  rw [List.filter_eq_self]
  intro r member
  obtain ⟨target, found⟩ := store r member
  simp [Graph.isStore, found]

theorem StoresOnce.stores (once : p.StoresOnce) :
    (p.outputs.filter p.graph.isStore).eraseDups = p.outputs := by
  rw [filter_isStore_outputs once.store]
  exact eraseDups_of_nodup once.outputs_nodup

theorem Sound.needs (sound : p.Sound call) {r : Ref} (needed : p.Needs r) :
    r ∈ p.outputs ∨ p.graph.Sound call r := by
  induction needed with
  | output member => exact .inl member
  | @operand r a _ named before =>
      rcases before with output | before
      · exact .inr (sound r output a named)
      · obtain ⟨op, found⟩ := before.isValue
        rw [Graph.operands_of_get? (Graph.op?_eq_some.mp found)] at named
        exact .inr (before.operand found named)

theorem Sound.evaluates (sound : p.Sound call)
    (stores : ∀ r ∈ p.outputs, p.graph.Evaluates call r) {r : Ref}
    (needed : p.Needs r) : p.graph.Evaluates call r := by
  rcases sound.needs needed with output | sound
  · exact stores r output
  · exact sound.evaluates

theorem effect_of_nodeKept {g h : Graph} {r s : Ref}
    (kept : Graph.NodeKept g h r s) {target : Target}
    (store : g.target? r = some target)
    (sound : ∀ a ∈ g.operands r, g.Sound call a) (batch : Batch) :
    h.effect call s batch = g.effect call r batch := by
  cases kept with
  | value value _ =>
      obtain ⟨op, found⟩ := value
      simp [Graph.target?, Graph.op?_eq_some.mp found, Node.target?] at store
  | store found found' value =>
      rw [Graph.operands_of_get? found] at sound
      rw [Graph.effect_of_store found, Graph.effect_of_store found',
        (value.sound call (sound _ (by simp [Node.operands]))).2]

theorem Kept.sound (kept : p.Kept q)
    (store : ∀ r ∈ p.outputs, ∃ target, p.graph.target? r = some target)
    (sound : p.Sound call) : q.Sound call := by
  obtain ⟨f, outputs, nodes⟩ := kept.outputs
  intro s mapped b named
  rw [outputs] at mapped
  obtain ⟨r, member, rfl⟩ := List.mem_map.mp mapped
  obtain ⟨target, stores⟩ := store r member
  cases nodes r member with
  | value value _ =>
      obtain ⟨op, found⟩ := value
      simp [Graph.target?, Graph.op?_eq_some.mp found, Node.target?] at stores
  | @store _ a b' found found' value =>
      rw [Graph.operands_of_get? found'] at named
      obtain rfl : b = b' := by simpa [Node.operands] using named
      refine (value.sound call (sound r member a ?_)).1
      rw [Graph.operands_of_get? found]
      simp [Node.operands]

theorem Kept.evaluates (kept : p.Kept q)
    (store : ∀ r ∈ p.outputs, ∃ target, p.graph.target? r = some target)
    (sound : p.Sound call) (stores : ∀ r ∈ p.outputs, p.graph.Evaluates call r)
    {s : Ref} (needed : q.Needs s) : q.graph.Evaluates call s := by
  refine (kept.sound store sound).evaluates ?_ needed
  obtain ⟨f, outputs, nodes⟩ := kept.outputs
  intro s mapped
  rw [outputs] at mapped
  obtain ⟨r, member, rfl⟩ := List.mem_map.mp mapped
  obtain ⟨target, found⟩ := store r member
  obtain ⟨source, found'⟩ :=
    Graph.target?_eq_some.mp ((nodes r member).target?.trans found)
  obtain ⟨next, stored⟩ := (stores r member).effect (Batch.filled 0)
  exact Graph.evaluates_of_effect found'
    ((effect_of_nodeKept (nodes r member) found (sound r member) _).trans
      stored)

theorem Kept.run_lower (kept : p.Kept q) (once : p.StoresOnce)
    (sound : p.Sound call) (stores : ∀ r ∈ p.outputs, p.graph.Evaluates call r)
    (batch : Batch) :
    ∃ last, q.lower.run call batch = (last, none) ∧
      p.outputs.foldlM (fun batch r => p.graph.effect call r batch) batch =
        .ok last.batch := by
  obtain ⟨last, ran, effects⟩ :=
    run_lower_of_evaluates kept.formed batch fun _ needed =>
    kept.evaluates once.store sound stores needed
  refine ⟨last, ran, ?_⟩
  obtain ⟨f, outputs, nodes⟩ := kept.outputs
  rw [(kept.storesOnce once).stores, outputs, List.foldlM_map] at effects
  rw [← effects]
  refine foldlM_congr ?_ batch
  intro r member batch
  obtain ⟨target, store⟩ := once.store r member
  exact (effect_of_nodeKept (nodes r member) store (sound r member) batch).symm

end Program

/-- No product of singles that a run computes is a NaN in any lane. -/
def Code.Numeric (code : Code) (call : Call) (batch : Batch) : Prop :=
  ∀ (k out a b : Nat) now v, code.instrs[k]? =
    some (.compute out (.binary .mulSingle a b)) →
    (Machine.start code.registers batch).run call (code.instrs.take k) =
      (now, none) →
    (Op.binary .mulSingle a b).eval call now.read = .ok v →
    ∀ i, Single.isNaN (v.get i) = false

namespace Program

variable {p q : Program} {call : Call} {batch : Batch}

theorem numeric_of_run (formed : p.WellFormed)
    (numeric : p.lower.Numeric call batch)
    (evaluates : ∀ r, p.Needs r → p.graph.Evaluates call r) {r : Ref}
    (needed : p.Needs r) {op : Op Ref} (found : p.graph.op? r = some op)
    {v : Lanes} (value : p.graph.value call r = .ok v) : op.Numeric v := by
  intro a b product
  subst product
  obtain ⟨k, inside, here⟩ :=
    List.mem_iff_getElem.mp ((mem_order formed).mpr needed)
  have at_k : p.order[k]? = some r := here ▸ List.getElem?_eq_getElem inside
  obtain ⟨n, out, register, now, found', instr, ran, read⟩ :=
    reads_lower formed batch evaluates at_k
  rw [Graph.op?_eq_some.mp found] at found'
  cases found'
  refine numeric k out (register a) (register b) now v instr ran ?_
  have mapped : Op.binary .mulSingle (register a) (register b) =
      (Op.binary .mulSingle a b).map register := rfl
  rw [mapped, Op.eval_map, ← value, Graph.value_eq formed.graph.ordered found]
  exact Op.eval_congr call read

theorem sound_of_run (formed : p.WellFormed) {last : Machine}
    (ran : p.lower.run call batch = (last, none))
    (numeric : p.lower.Numeric call batch) {r : Ref} (needed : p.Needs r)
    (value : p.graph.IsValue r) : p.graph.Sound call r := by
  have evaluates : ∀ r, p.Needs r → p.graph.Evaluates call r :=
    fun r needed => evaluates_of_run_lower formed ran needed
  induction r using Nat.strongRecOn with
  | ind r induction =>
      obtain ⟨op, found⟩ := value
      have node := Graph.op?_eq_some.mp found
      obtain ⟨v, value⟩ := (evaluates r needed).value ⟨op, found⟩
      refine .mk found ?_ value
        (numeric_of_run formed numeric evaluates needed found value)
      intro a named
      have operand : p.Needs a :=
        .operand needed (by rwa [Graph.operands_of_get? node])
      exact induction a (formed.graph.ordered r _ node a named) operand
        (formed.graph.operand r _ node a named)

theorem kept_run (pass : Pass) (formed : p.WellFormed) (once : p.StoresOnce) :
    p.Kept (pass.run p) := by
  cases pass with
  | selects => exact kept_simplifySelects formed
  | sharing => exact kept_share formed
  | promotion => exact kept_promoteLanes formed
  | folding => exact kept_fold formed
  | deadStores =>
      rw [Pass.run, once.dropDeadStores]
      exact .refl formed

theorem kept_optimize (passes : List Pass) (formed : p.WellFormed)
    (once : p.StoresOnce) : p.Kept (p.optimize passes).1 := by
  induction passes generalizing p with
  | nil => exact .refl formed
  | cons pass rest induction =>
      have first := kept_run pass formed once
      exact first.trans (induction first.formed (first.storesOnce once))

/-- A sweep finds what it looks up: the operands of a node before it, and at the
end the outputs. -/
structure LooksUp (p : Program) : Prop where
  operand : ∀ before r after, p.order = before ++ r :: after →
    ∀ a ∈ p.graph.operands r, a ∈ before
  output : ∀ r ∈ p.outputs, r ∈ p.order

theorem WellFormed.looksUp (formed : p.WellFormed) : p.LooksUp where
  operand _ _ _ split _ named := operand_before formed split named
  output _ member := (mem_order formed).mpr (.output member)

/-- Passes in any number and order go through, and if the code of a program runs
without a fault and without a NaN, then so does the code after the passes, and
it leaves the same batch. -/
theorem optimize_preserves (formed : p.WellFormed) (once : p.StoresOnce)
    (passes : List Pass) :
    (∀ before after, passes = before ++ after → (p.optimize before).1.LooksUp) ∧
    ∀ call batch last, p.lower.run call batch = (last, none) →
    p.lower.Numeric call batch →
      ∃ last', (p.optimize passes).1.lower.run call batch = (last', none) ∧
        last'.batch = last.batch := by
  refine ⟨fun before _ _ => (kept_optimize before formed once).formed.looksUp,
    ?_⟩
  intro call batch last ran numeric
  have evaluates : ∀ r, p.Needs r → p.graph.Evaluates call r :=
    fun r needed => evaluates_of_run_lower formed ran needed
  have sound : p.Sound call := by
    intro r member a named
    obtain ⟨n, found⟩ := Graph.get?_of_lt (formed.output_lt r member)
    have value :=
      formed.graph.operand r n found a (by rwa [← Graph.operands_of_get? found])
    exact sound_of_run formed ran numeric
      (.operand (.output member) named) value
  have stores := fun r member => evaluates r (.output member)
  obtain ⟨first, ran', effects⟩ :=
    (Kept.refl formed).run_lower once sound stores batch
  obtain ⟨last', ran'', effects'⟩ :=
    (kept_optimize passes formed once).run_lower once sound stores batch
  rw [ran] at ran'
  cases ran'
  rw [effects] at effects'
  exact ⟨last', ran'', (Except.ok.inj effects').symm⟩

def scaled : Program where
  graph :=
    ⟨#[.value (.argument .startVertex), .value (.word 0),
      .value (.binary .add 0 1),
    .value (.round .unsigned 2), .value (.single Single.one),
    .value (.binary .mulSingle 3 4), .store .vertexId 5]⟩
  outputs := [6]

theorem scaled_storesOnce : scaled.StoresOnce where
  store r member := by
    rw [scaled, List.mem_singleton] at member
    exact ⟨.vertexId, by rw [member]; rfl⟩
  nodup := by decide

def scaledCode : Code where
  instrs := [.compute 0 (.argument .startVertex), .compute 1 (.word 0),
    .compute 2 (.binary .add 0 1), .compute 0 (.round .unsigned 2),
    .compute 1 (.single Single.one), .compute 2 (.binary .mulSingle 0 1),
    .store .vertexId 2]
  registers := 3

theorem scaled_lower : scaled.lower = scaledCode := by
  cbv

theorem scaled_run : ∃ last,
    scaled.lower.run { startVertex := 3 } (Batch.filled 0) = (last, none) ∧
      last.batch.vertexId = .splat 0x40400000 := by
  rw [scaled_lower]
  exact ⟨_, Prod.ext rfl (by decide +kernel), by decide +kernel⟩

theorem scaled_numeric :
    scaled.lower.Numeric { startVertex := 3 } (Batch.filled 0) := by
  intro k out a b now v instr ran evaluated
  rw [scaled_lower] at instr ran
  match k with
  | 5 =>
      cases instr
      have held :
          ((Machine.start scaledCode.registers (Batch.filled 0)).run
            { startVertex := 3 } (scaledCode.instrs.take 5)).1.registers =
            #[.splat 0x40400000, .splat Single.one, .splat 3] := by
        decide +kernel
      simp only [ran] at held
      simp only [Op.eval, Machine.read, held] at evaluated
      cases evaluated
      intro i
      rw [Lanes.get_zipWith]
      decide +revert +kernel
  | 0 | 1 | 2 | 3 | 4 | 6 => cases instr
  | k + 7 => cases instr

theorem optimize_preserves_scaled :
    scaled.WellFormed ∧ scaled.StoresOnce ∧
      scaled.lower.Numeric { startVertex := 3 } (Batch.filled 0) ∧
      (scaled.optimize [.selects, .sharing, .promotion, .folding]).1.lower =
        ⟨[.compute 0 (.argument .startVertex), .compute 1 (.round .unsigned 0),
          .store .vertexId 1], 2⟩ ∧
      ∃ last last',
        scaled.lower.run { startVertex := 3 } (Batch.filled 0) = (last, none) ∧
        (scaled.optimize [.selects, .sharing, .promotion, .folding]).1.lower.run
          { startVertex := 3 } (Batch.filled 0) = (last', none) ∧
        last'.batch = last.batch ∧
        last'.batch.vertexId = .splat 0x40400000 := by
  have formed : scaled.WellFormed := by decide
  obtain ⟨last, ran, stored⟩ := scaled_run
  obtain ⟨last', ran', same⟩ :=
    (optimize_preserves formed scaled_storesOnce
      [.selects, .sharing, .promotion, .folding]).2
      _ _ _ ran scaled_numeric
  exact ⟨formed, scaled_storesOnce,
    scaled_numeric, by cbv, last, last', ran, ran', same,
    by rw [same, stored]⟩

end Program
end VertexFetch
