import VertexFetch.Machine
import VertexFetch.Proofs.Graph.Allocation

namespace VertexFetch

def Node.instr (n : Node) (out : Nat) (register : Ref → Nat) : Instr :=
  match n with
  | .value op => .compute out (op.map register)
  | .store target source => .store target (register source)

def Node.claim (n : Node) (a : Allocation) (r : Ref) : Nat × Allocation :=
  match n with
  | .value _ => a.assign r
  | .store _ _ => (0, a)

theorem Node.register_claim (n : Node) (a : Allocation) {r x : Ref}
    (other : x ≠ r) : (n.claim a r).2.register x = a.register x := by
  cases n with
  | value op => exact a.register_assign_of_ne other
  | store target source => rfl

namespace Batch

theorem store?_isSome (first second : Batch) (target : Target) (v w : Lanes) :
    (first.store? target v).isSome = (second.store? target w).isSome := by
  cases target with
  | vertexId => rfl
  | cutMask => rfl
  | row element component =>
      simp only [store?]
      split <;> rfl

end Batch

namespace Graph

theorem not_isValue_of_store {g : Graph} {r source : Ref} {target : Target}
    (found : g.get? r = some (.store target source)) : ¬g.IsValue r := by
  rintro ⟨op, value⟩
  rw [op?_eq_some, found] at value
  cases value

/-- The node can be evaluated: it has its value, or stores the one it is
given. -/
structure Evaluates (g : Graph) (call : Call) (r : Ref) : Prop where
  value : g.IsValue r → ∃ v, g.value call r = .ok v
  effect : ∀ batch, ∃ next, g.effect call r batch = .ok next

theorem effect_of_isValue {g : Graph} {r : Ref} (value : g.IsValue r)
    (call : Call) (batch : Batch) : g.effect call r batch = .ok batch := by
  obtain ⟨op, found⟩ := value
  simp only [effect, op?_eq_some.mp found]

theorem effect_of_store {g : Graph} {r source : Ref} {target : Target}
    (found : g.get? r = some (.store target source)) (call : Call)
    (batch : Batch) :
    g.effect call r batch = (g.value call source).bind fun v =>
      match batch.store? target v with
      | some batch => .ok batch
      | none => .error .outOfBounds := by
  simp only [effect, found]
  rfl

theorem evaluates_of_effect {g : Graph} {r source : Ref} {target : Target}
    {call : Call} (found : g.get? r = some (.store target source))
    {batch next : Batch} (stored : g.effect call r batch = .ok next) :
    g.Evaluates call r := by
  refine ⟨?_, ?_⟩
  · exact fun value => absurd value (not_isValue_of_store found)
  · intro other
    rw [effect_of_store found] at stored ⊢
    cases given : g.value call source with
    | error fault => simp [given, Except.bind] at stored
    | ok v =>
        simp only [given, Except.bind] at stored ⊢
        have same := Batch.store?_isSome batch other target v v
        cases here : batch.store? target v with
        | none => simp [here] at stored
        | some first =>
            cases there : other.store? target v with
            | none => simp [here, there] at same
            | some second => exact ⟨second, rfl⟩

end Graph

namespace Machine

theorem read_write_self {m next : Machine} {register : Nat} {v : Lanes}
    (written : m.write register v = .ok next) : next.read register = .ok v := by
  unfold write at written
  split at written
  next inside =>
    cases written
    simp [read, inside]
  next => cases written

theorem read_write_of_ne {m next : Machine} {register other : Nat} {v : Lanes}
    (written : m.write register v = .ok next) (distinct : other ≠ register) :
    next.read other = m.read other := by
  unfold write at written
  split at written
  next =>
    cases written
    simp [read, Array.getElem?_setIfInBounds_ne (Ne.symm distinct)]
  next => cases written

theorem write_of_lt (m : Machine) {register : Nat}
    (inside : register < m.registers.size) (v : Lanes) :
    ∃ next, m.write register v = .ok next ∧ next.batch = m.batch ∧
      next.registers.size = m.registers.size := by
  simp only [write, if_pos inside]
  exact ⟨_, rfl, rfl, by simp⟩

def Holds (m : Machine) (a : Allocation) (g : Graph) (call : Call)
    (done uses : List Ref) : Prop :=
  ∀ x, g.Live done uses x → m.read (a.register x) = g.value call x

end Machine

namespace Graph

variable {g : Graph} {a : Allocation} {m : Machine} {call : Call}
  {done uses : List Ref} {r : Ref}

structure Ready (g : Graph) (call : Call) (a : Allocation) (m : Machine)
    (done uses : List Ref) (r : Ref) (n : Node) : Prop where
  formed : g.WellFormed
  found : g.get? r = some n
  operands : ∀ x ∈ n.operands, x ∈ done
  fits : a.Fits g done (n.operands ++ uses)
  holds : m.Holds a g call done (n.operands ++ uses)

theorem Ready.live {n : Node} (ready : g.Ready call a m done uses r n) {x : Ref}
    (named : x ∈ n.operands) : g.Live done (n.operands ++ uses) x :=
  ⟨ready.operands x named, List.mem_append_left _ named,
    ready.formed.operand r n ready.found x named⟩

theorem place_eq {n : Node} (found : g.get? r = some n) (a : Allocation) :
    g.place a r =
      (some (n.instr (n.claim a r).1 (n.claim a r).2.register),
        n.operands.foldl Allocation.release (n.claim a r).2) := by
  cases n <;> simp only [place, found] <;> rfl

theorem fits_claim {n : Node} (fits : a.Fits g done uses)
    (found : g.get? r = some n) :
    (n.claim a r).2.Fits g (done ++ [r]) uses := by
  cases n with
  | value op => exact fits.assign (get?_lt found)
  | store target source => exact fits.skip (not_isValue_of_store found)

theorem Ready.read {n : Node} (ready : g.Ready call a m done uses r n) {x : Ref}
    (named : x ∈ n.operands) :
    m.read ((n.claim a r).2.register x) = g.value call x := by
  have before := ready.formed.ordered r n ready.found x named
  rw [n.register_claim a (Nat.ne_of_lt before)]
  exact ready.holds x (ready.live named)

theorem Ready.fits_place {n : Node} (ready : g.Ready call a m done uses r n) :
    (g.place a r).2.Fits g (done ++ [r]) uses := by
  have claimed := fits_claim ready.fits ready.found
  rw [place_eq ready.found]
  apply claimed.releaseAll
  intro x named
  exact ⟨List.mem_append_left _ (ready.operands x named),
    (ready.live named).value⟩

private theorem Ready.kept {n : Node} (ready : g.Ready call a m done uses r n)
    {x : Ref} (live : g.Live (done ++ [r]) uses x) (other : x ≠ r) :
    g.Live done (n.operands ++ uses) x ∧
      (g.place a r).2.register x = a.register x := by
  have before : x ∈ done := by simpa [other] using live.done
  refine ⟨⟨before, List.mem_append_right _ live.used, live.value⟩, ?_⟩
  rw [place_eq ready.found, Allocation.register_releaseAll,
    n.register_claim a other]

theorem Ready.step_value {op : Op Ref}
    (ready : g.Ready call a m done uses r (.value op)) :
    m.step call ((Node.value op).instr (a.assign r).1 (a.assign r).2.register) =
      (g.value call r).bind (m.write (a.assign r).1) := by
  have same : op.eval call (m.read ∘ (a.assign r).2.register) =
      g.value call r := by
    rw [value_eq ready.formed.ordered (op?_eq_some.mpr ready.found)]
    apply Op.eval_congr
    intro x named
    exact ready.read named
  rw [Node.instr, Machine.step, Op.eval_map, same]
  rfl

theorem Ready.step_store {target : Target} {source : Ref}
    (ready : g.Ready call a m done uses r (.store target source)) :
    m.step call ((Node.store target source).instr 0 a.register) =
      (g.effect call r m.batch).map fun batch => { m with batch } := by
  have same : m.read (a.register source) = g.value call source :=
    ready.read (by simp [Node.operands])
  rw [Node.instr, Machine.step, same, effect_of_store ready.found]
  cases g.value call source with
  | error fault => rfl
  | ok v =>
      simp only [bind, Except.bind, Machine.store]
      cases m.batch.store? target v <;> rfl

theorem Ready.step_ok {n : Node} (ready : g.Ready call a m done uses r n)
    (room : (g.place a r).2.busy.size ≤ m.registers.size)
    (evaluates : g.Evaluates call r) :
    ∃ next,
      m.step call (n.instr (n.claim a r).1 (n.claim a r).2.register) =
        .ok next ∧
      g.effect call r m.batch = .ok next.batch ∧
      next.registers.size = m.registers.size ∧
      next.Holds (g.place a r).2 g call (done ++ [r]) uses := by
  cases n with
  | value op =>
      have isValue : g.IsValue r := ⟨op, op?_eq_some.mpr ready.found⟩
      obtain ⟨v, value⟩ := evaluates.value isValue
      obtain ⟨_, taken, _⟩ := a.busy_assign r
      obtain ⟨inside, _⟩ := Array.getElem?_eq_some_iff.mp taken
      rw [place_eq ready.found, Allocation.size_busy_releaseAll] at room
      obtain ⟨next, written, sameBatch, sameSize⟩ :=
        m.write_of_lt (Nat.lt_of_lt_of_le inside room) v
      refine ⟨next, ?_, ?_, sameSize, ?_⟩
      · rw [Node.claim, ready.step_value, value]
        exact written
      · rw [effect_of_isValue isValue, sameBatch]
      · intro x live
        by_cases same : x = r
        · subst same
          rw [place_eq ready.found, Allocation.register_releaseAll, Node.claim,
            Allocation.register_assign ready.fits (get?_lt ready.found),
            if_pos rfl, value]
          exact Machine.read_write_self written
        · obtain ⟨before, sameRegister⟩ := ready.kept live same
          rw [sameRegister,
            Machine.read_write_of_ne written (ready.fits.assign_ne before r)]
          exact ready.holds x before
  | store target source =>
      obtain ⟨next, stored⟩ := evaluates.effect m.batch
      refine ⟨{ m with batch := next }, ?_, stored, rfl, ?_⟩
      · rw [Node.claim, ready.step_store, stored]
        rfl
      · intro x live
        have other : x ≠ r := by
          rintro rfl
          exact not_isValue_of_store ready.found live.value
        obtain ⟨before, same⟩ := ready.kept live other
        rw [same]
        exact ready.holds x before

theorem Ready.evaluates {n : Node} (ready : g.Ready call a m done uses r n)
    {next : Machine}
    (stepped : m.step call (n.instr (n.claim a r).1 (n.claim a r).2.register) =
      .ok next) : g.Evaluates call r := by
  cases n with
  | value op =>
      have isValue : g.IsValue r := ⟨op, op?_eq_some.mpr ready.found⟩
      rw [Node.claim, ready.step_value] at stepped
      cases value : g.value call r with
      | error fault => simp [value, Except.bind] at stepped
      | ok v =>
          exact ⟨fun _ => ⟨v, value⟩,
            fun batch => ⟨batch, effect_of_isValue isValue call batch⟩⟩
  | store target source =>
      rw [Node.claim, ready.step_store] at stepped
      cases stored : g.effect call r m.batch with
      | error fault => simp [stored, Except.map] at stepped
      | ok batch => exact evaluates_of_effect ready.found stored

/-- The nodes can be laid out after those of `done`: each is new and has its
operands before it. -/
def Follows (g : Graph) : List Ref → List Ref → Prop
  | _, [] => True
  | done, r :: rest =>
      r < g.size ∧ (∀ x ∈ g.operands r, x ∈ done) ∧ g.Follows (done ++ [r]) rest

theorem follows_append {done first second : List Ref} :
    g.Follows done (first ++ second) ↔
      g.Follows done first ∧ g.Follows (done ++ first) second := by
  induction first generalizing done with
  | nil => simp [Follows]
  | cons r rest induction => simp [Follows, induction, and_assoc]

theorem Finishes.follows {P : Ref → Prop} (inside : ∀ x, P x → x < g.size)
    (finishes : Finishes g P [] done) : g.Follows [] done := by
  induction finishes with
  | refl => trivial
  | snoc _ _ operands property induction =>
      exact follows_append.mpr ⟨induction, inside _ property, operands, trivial⟩

theorem size_busy_placeAll (g : Graph) (rest : List Ref) (a : Allocation) :
    a.busy.size ≤ (g.placeAll rest a).2.busy.size := by
  induction rest generalizing a with
  | nil => exact Nat.le_refl _
  | cons r rest induction =>
      refine Nat.le_trans ?_ (induction (g.place a r).2)
      cases found : g.get? r with
      | none => simp [place, found]
      | some n =>
          rw [place_eq found, Allocation.size_busy_releaseAll]
          cases n with
          | value op => exact a.size_busy_assign r
          | store target source => exact Nat.le_refl _

structure Prepared (g : Graph) (call : Call) (outputs : List Ref)
    (a : Allocation) (m : Machine) (done rest : List Ref) : Prop where
  formed : g.WellFormed
  follows : g.Follows done rest
  fits : a.Fits g done (rest.flatMap g.operands ++ outputs)
  holds : m.Holds a g call done (rest.flatMap g.operands ++ outputs)
  room : (g.placeAll rest a).2.busy.size ≤ m.registers.size

variable {outputs rest : List Ref}

theorem Prepared.ready
    (prepared : g.Prepared call outputs a m done (r :: rest)) :
    ∃ n, g.Ready call a m done (rest.flatMap g.operands ++ outputs) r n ∧
      (g.placeAll (r :: rest) a).1 =
        n.instr (n.claim a r).1 (n.claim a r).2.register ::
          (g.placeAll rest (g.place a r).2).1 := by
  obtain ⟨inside, operands, _⟩ := prepared.follows
  obtain ⟨n, found⟩ := get?_of_lt inside
  have named := operands_of_get? found
  refine ⟨n, ⟨prepared.formed, found, ?_, ?_, ?_⟩, ?_⟩
  · rw [← named]
    exact operands
  · simpa [named] using prepared.fits
  · simpa [named] using prepared.holds
  · simp [placeAll, place_eq found]

theorem Prepared.next {n : Node}
    (prepared : g.Prepared call outputs a m done (r :: rest))
    (ready : g.Ready call a m done (rest.flatMap g.operands ++ outputs) r n)
    (evaluates : g.Evaluates call r) :
    ∃ next,
      m.step call (n.instr (n.claim a r).1 (n.claim a r).2.register) =
        .ok next ∧
      g.effect call r m.batch = .ok next.batch ∧
      g.Prepared call outputs (g.place a r).2 next (done ++ [r]) rest := by
  have room : (g.placeAll rest (g.place a r).2).2.busy.size ≤
      m.registers.size := prepared.room
  have smaller := size_busy_placeAll g rest (g.place a r).2
  obtain ⟨next, stepped, effect, sameSize, holds⟩ :=
    ready.step_ok (Nat.le_trans smaller room) evaluates
  refine ⟨next, stepped, effect, prepared.formed, prepared.follows.2.2,
    ready.fits_place, holds, ?_⟩
  rw [sameSize]
  exact room

theorem Prepared.run (prepared : g.Prepared call outputs a m done rest)
    (evaluates : ∀ r ∈ rest, g.Evaluates call r) :
    ∃ last, m.run call (g.placeAll rest a).1 = (last, none) ∧
      rest.foldlM (fun batch r => g.effect call r batch) m.batch =
        .ok last.batch := by
  induction rest generalizing a m done with
  | nil => exact ⟨m, rfl, rfl⟩
  | cons r rest induction =>
      obtain ⟨n, ready, instrs⟩ := prepared.ready
      obtain ⟨next, stepped, effect, further⟩ :=
        prepared.next ready (evaluates r (by simp))
      obtain ⟨last, ran, effects⟩ :=
        induction further fun x later => evaluates x (by simp [later])
      refine ⟨last, ?_, ?_⟩
      · rw [instrs, Machine.run, stepped]
        exact ran
      · rw [List.foldlM_cons, effect]
        exact effects

theorem Prepared.evaluates (prepared : g.Prepared call outputs a m done rest)
    {last : Machine} (ran : m.run call (g.placeAll rest a).1 = (last, none)) :
    ∀ r ∈ rest, g.Evaluates call r := by
  induction rest generalizing a m done with
  | nil => simp
  | cons r rest induction =>
      obtain ⟨n, ready, instrs⟩ := prepared.ready
      rw [instrs, Machine.run] at ran
      cases stepped :
        m.step call (n.instr (n.claim a r).1 (n.claim a r).2.register) with
      | error fault => simp [stepped] at ran
      | ok next =>
          have first := ready.evaluates stepped
          obtain ⟨next', stepped', _, further⟩ := prepared.next ready first
          rw [stepped] at stepped'
          cases stepped'
          simp only [stepped] at ran
          intro x member
          rcases List.mem_cons.mp member with rfl | later
          · exact first
          · exact induction further ran x later

theorem Prepared.reads (prepared : g.Prepared call outputs a m done rest)
    (evaluates : ∀ r ∈ rest, g.Evaluates call r) {k : Nat}
    (at_k : rest[k]? = some r) :
    ∃ n out register now,
      g.get? r = some n ∧
      (g.placeAll rest a).1[k]? = some (n.instr out register) ∧
      m.run call ((g.placeAll rest a).1.take k) = (now, none) ∧
      ∀ x ∈ n.operands, now.read (register x) = g.value call x := by
  induction rest generalizing a m done k with
  | nil => simp at at_k
  | cons head rest induction =>
      obtain ⟨n, ready, instrs⟩ := prepared.ready
      rw [instrs]
      cases k with
      | zero =>
          cases at_k
          exact ⟨n, _, _, m, ready.found, rfl, rfl,
            fun x named => ready.read named⟩
      | succ k =>
          obtain ⟨next, stepped, _, further⟩ :=
            prepared.next ready (evaluates head (by simp))
          obtain ⟨n', out, register, now, found, instr, ran, read⟩ :=
            induction further (fun x later => evaluates x (by simp [later]))
              (by simpa using at_k)
          refine ⟨n', out, register, now, found, by simpa using instr, ?_, read⟩
          rw [List.take_succ_cons, Machine.run, stepped]
          exact ran

end Graph

namespace Program

variable {p : Program}

theorem prepared (formed : p.WellFormed) (call : Call) (batch : Batch) :
    p.graph.Prepared call p.outputs p.allocation
      (Machine.start p.lower.registers batch) [] p.order where
  formed := formed.graph
  follows := (order_finishes formed).1.follows fun _ needed => needed.lt formed
  fits := p.allocation_fits
  holds x live := absurd live.done (by simp)
  room := by simp [Machine.start, lower]

theorem foldlM_effect_filter (g : Graph) (call : Call) (rs : List Ref)
    (batch : Batch) :
    rs.foldlM (fun batch r => g.effect call r batch) batch =
      (rs.filter g.isStore).foldlM
        (fun batch r => g.effect call r batch) batch := by
  induction rs generalizing batch with
  | nil => rfl
  | cons r rest induction =>
      cases store : g.isStore r with
      | true =>
          rw [List.filter_cons_of_pos store, List.foldlM_cons, List.foldlM_cons]
          simp only [induction]
      | false =>
          have idle : g.effect call r batch = .ok batch := by
            cases found : g.get? r with
            | none => simp only [Graph.effect, found]
            | some n =>
                cases n with
                | value op => simp only [Graph.effect, found]
                | store target source =>
                    simp [Graph.isStore, Graph.target?, found, Node.target?]
                      at store
          rw [List.filter_cons_of_neg (by simp [store]), List.foldlM_cons, idle]
          exact induction batch

/-- Code runs if the needed nodes can be evaluated, and leaves the effects of
the stores. -/
theorem run_lower_of_evaluates (formed : p.WellFormed) {call : Call}
    (batch : Batch) (evaluates : ∀ r, p.Needs r → p.graph.Evaluates call r) :
    ∃ last, p.lower.run call batch = (last, none) ∧
      (p.outputs.filter p.graph.isStore).eraseDups.foldlM
        (fun batch r => p.graph.effect call r batch) batch =
          .ok last.batch := by
  obtain ⟨last, ran, effects⟩ :=
    (prepared formed call batch).run fun r member =>
    evaluates r ((mem_order formed).mp member)
  refine ⟨last, ran, ?_⟩
  rw [foldlM_effect_filter, order_filter_isStore formed] at effects
  exact effects

theorem evaluates_of_run_lower (formed : p.WellFormed) {call : Call}
    {batch : Batch} {last : Machine}
    (ran : p.lower.run call batch = (last, none)) {r : Ref}
    (needed : p.Needs r) : p.graph.Evaluates call r :=
  (prepared formed call batch).evaluates ran r ((mem_order formed).mpr needed)

theorem length_instrs_lower (formed : p.WellFormed) :
    p.lower.instrs.length = p.order.length := by
  have counted : ∀ rest done a, p.graph.Follows done rest →
      (p.graph.placeAll rest a).1.length = rest.length := by
    intro rest
    induction rest with
    | nil => exact fun _ _ _ => rfl
    | cons r rest induction =>
        rintro done a ⟨inside, _, further⟩
        obtain ⟨n, found⟩ := Graph.get?_of_lt inside
        simp [Graph.placeAll, Graph.place_eq found, induction _ _ further]
  exact counted _ _ _
    ((order_finishes formed).1.follows fun _ needed => needed.lt formed)

theorem reads_lower (formed : p.WellFormed) {call : Call} (batch : Batch)
    (evaluates : ∀ r, p.Needs r → p.graph.Evaluates call r) {k : Nat} {r : Ref}
    (at_k : p.order[k]? = some r) :
    ∃ n out register now,
      p.graph.get? r = some n ∧
      p.lower.instrs[k]? = some (n.instr out register) ∧
      (Machine.start p.lower.registers batch).run call (p.lower.instrs.take k) =
        (now, none) ∧
      ∀ a ∈ n.operands, now.read (register a) = p.graph.value call a :=
  (prepared formed call batch).reads
    (fun x member => evaluates x ((mem_order formed).mp member)) at_k

end Program
end VertexFetch
