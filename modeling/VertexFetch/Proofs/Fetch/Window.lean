import VertexFetch.Fetch.Window
import VertexFetch.Proofs.Draft
import VertexFetch.Proofs.View
import VertexFetch.Proofs.Word

namespace VertexFetch

namespace View

/-- The vertex that a lane reads, counted from the start. -/
def current (v : View) (index : UInt32) : Rate → UInt32
  | .perVertex => index + v.argument .baseVertex
  | .perInstance step => if step = 0 then 0 else v.argument .instanceId / step

def start (v : View) : Rate → UInt32
  | .perVertex => v.argument .startVertex
  | .perInstance _ => v.argument .startInstance

end View

namespace Fetch

open Build

def steppedOffset (a : Attribute) (field : Stream.Field → UInt32)
    (current start : UInt32) : UInt32 :=
  start * field .pitch + (current * field .pitch + a.offset)

def endsInside (a : Attribute) (field : Stream.Field → UInt32)
    (offset : UInt32) : Bool :=
  let stop := offset + UInt32.ofNat a.format.bytes
  decide (offset ≤ stop) && decide (stop ≤ field .size)

def vertexInside (a : Attribute) (field : Stream.Field → UInt32)
    (current start : UInt32) : Bool :=
  let bound := if field .maxVertex < start then 0 else field .maxVertex - start
  let rest := if field .maxVertex < start then 0 else field .partialSize
  if current = bound then
    Word.ltSigned (UInt32.ofNat a.format.bytes - 1) (rest - a.offset)
  else decide (current < bound)

def steppedInside (a : Attribute) (field : Stream.Field → UInt32)
    (current start : UInt32) : Bool :=
  let offset := steppedOffset a field current start
  vertexInside a field current start &&
    (decide (a.offset ≤ offset) && endsInside a field offset)

def indexedOffset (a : Attribute) (field : Stream.Field → UInt32)
    (index start : UInt32) : UInt32 :=
  (index + start) * field .pitch + a.offset

def indexedInside (a : Attribute) (field : Stream.Field → UInt32)
    (index start : UInt32) : Bool :=
  let offset := indexedOffset a field index start
  decide (index ≤ index + start) &&
    (decide (index + start ≤ field .maxVertex) &&
      (decide ((index + start) * field .pitch ≤ offset) &&
        endsInside a field offset))

theorem bytes_le_sixteen (f : Format) : f.bytes ≤ 16 := by
  have each : ∀ shape : Shape, shape.channels * shape.channelBits / 8 ≤ 16 := by
    intro shape
    cases shape <;> decide
  exact each f.shape

theorem endsInside_iff {a : Attribute} {field : Stream.Field → UInt32}
    {offset : UInt32} :
    endsInside a field offset = true ↔
      offset.toNat + a.format.bytes ≤ (field .size).toNat := by
  have few := bytes_le_sixteen a.format
  have bytes : (UInt32.ofNat a.format.bytes).toNat = a.format.bytes :=
    UInt32.toNat_ofNat_of_lt' (Nat.lt_of_le_of_lt few (by decide))
  have size := (field .size).toNat_lt
  have bound := offset.toNat_lt
  simp only [endsInside, Bool.and_eq_true, decide_eq_true_eq,
    UInt32.le_iff_toNat_le, UInt32.toNat_add, bytes]
  omega

theorem steppedInside_ends {a : Attribute} {field : Stream.Field → UInt32}
    {current start : UInt32}
    (inside : steppedInside a field current start = true) :
    (steppedOffset a field current start).toNat + a.format.bytes ≤
      (field .size).toNat := by
  simp only [steppedInside, Bool.and_eq_true] at inside
  exact endsInside_iff.mp inside.2.2

theorem indexedInside_ends {a : Attribute} {field : Stream.Field → UInt32}
    {index start : UInt32} (inside : indexedInside a field index start = true) :
    (indexedOffset a field index start).toNat + a.format.bytes ≤
      (field .size).toNat := by
  simp only [indexedInside, Bool.and_eq_true] at inside
  exact endsInside_iff.mp inside.2.2.2

variable {known : List Ref}

theorem steps_does (rate : Rate) (indices : Ref) (named : indices ∈ known) :
    Build.Does known (steps rate indices) (fun steps => [steps.1, steps.2])
      fun g steps =>
        ∀ (v : View) streams reach x, g.WellFormed →
          g.Holds (v.Shows streams reach) indices x →
          g.Holds (v.Shows streams reach) steps.1
            (fun i => v.current (x i) rate) ∧
            g.Holds (v.Shows streams reach) steps.2 fun _ => v.start rate := by
  cases rate with
  | perVertex =>
      refine .bind (.value (by simp [Op.operands])) fun base => ?_
      refine .bind (.value (by simp [Op.operands, named])) fun current => ?_
      refine .bind (.value (by simp [Op.operands])) fun start => ?_
      refine .pure (by simp) ?_
      intro g started added based v streams reach x formed indexed
      have sums :=
        Graph.Holds.binary formed added indexed (.shownArgument formed based)
          (by simp)
      exact ⟨sums, .shownArgument formed started⟩
  | perInstance step =>
      unfold steps
      dsimp only
      split
      next zero =>
        refine .bind (.value (by simp [Op.operands])) fun current => ?_
        refine .bind (.value (by simp [Op.operands])) fun start => ?_
        refine .pure (by simp) ?_
        intro g started stopped v streams reach x formed _
        refine ⟨(Graph.Holds.word formed stopped).ext ?_,
          .shownArgument formed started⟩
        intro i
        rw [View.current, if_pos zero]
      next positive =>
        refine .bind (.value (by simp [Op.operands])) fun id => ?_
        refine .bind (.value (by simp [Op.operands])) fun literal => ?_
        refine .bind (.value (by simp [Op.operands])) fun current => ?_
        refine .bind (.value (by simp [Op.operands])) fun start => ?_
        refine .pure (by simp) ?_
        intro g started divided literalNode idNode v streams reach x formed _
        have ids : g.Holds (v.Shows streams reach) id _ :=
          .shownArgument formed idNode
        have quotients :=
          Graph.Holds.binary formed divided ids (.word formed literalNode)
            (by simp)
        refine ⟨quotients.ext ?_, .shownArgument formed started⟩
        intro i
        rw [View.current, if_neg positive]
        rfl

theorem steppedWindow_does (a : Attribute) (current start : Ref) :
    Build.Does [current, start] (steppedWindow a current start)
      (fun w => [w.offsets, w.mask])
      fun g w => w.stream = a.stream.toUInt8 ∧
        ∀ (C : Call → Prop) field x y, g.WellFormed →
        (∀ call, C call → ∃ st, call.stream a.stream.toUInt8 = .ok st ∧
          ∀ f, st.field f = field f) →
        g.Holds C current x → g.Holds C start y →
        g.Holds C w.offsets (fun i => steppedOffset a field (x i) (y i)) ∧
          g.Holds C w.mask fun i =>
            Word.ofBool (steppedInside a field (x i) (y i)) := by
  unfold steppedWindow
  dsimp only
  refine .bind (.value (by simp [Op.operands])) fun pitch => ?_
  refine .bind (.value (by simp [Op.operands])) fun offset => ?_
  refine .bind (.value (by simp [Op.operands])) fun whole => ?_
  refine .bind (.value (by simp [Op.operands])) fun pastEnd => ?_
  refine .bind (.value (by simp [Op.operands])) fun noBound => ?_
  refine .bind (.value (by simp [Op.operands])) fun left => ?_
  refine .bind (.value (by simp [Op.operands])) fun bound => ?_
  refine .bind (.value (by simp [Op.operands])) fun noRest => ?_
  refine .bind (.value (by simp [Op.operands])) fun partialSize => ?_
  refine .bind (.value (by simp [Op.operands])) fun rest => ?_
  refine .bind (.value (by simp [Op.operands])) fun lastByte => ?_
  refine .bind (.value (by simp [Op.operands])) fun gap => ?_
  refine .bind (.value (by simp [Op.operands])) fun restReaches => ?_
  refine .bind (.value (by simp [Op.operands])) fun atBound => ?_
  refine .bind (.value (by simp [Op.operands])) fun belowBound => ?_
  refine .bind (.value (by simp [Op.operands])) fun vertexMask => ?_
  refine .bind (.value (by simp [Op.operands])) fun base => ?_
  refine .bind (.value (by simp [Op.operands])) fun advance => ?_
  refine .bind (.value (by simp [Op.operands])) fun shifted => ?_
  refine .bind (.value (by simp [Op.operands])) fun offsets => ?_
  refine .bind (.value (by simp [Op.operands])) fun bytes => ?_
  refine .bind (.value (by simp [Op.operands])) fun stop => ?_
  refine .bind (.value (by simp [Op.operands])) fun above => ?_
  refine .bind (.value (by simp [Op.operands])) fun ahead => ?_
  refine .bind (.value (by simp [Op.operands])) fun noWrap => ?_
  refine .bind (.value (by simp [Op.operands])) fun size => ?_
  refine .bind (.value (by simp [Op.operands])) fun short => ?_
  refine .bind (.value (by simp [Op.operands])) fun inBuffer => ?_
  refine .bind (.value (by simp [Op.operands])) fun mask => ?_
  refine .pure (by simp) ?_
  intro g maskNode inBufferNode shortNode sizeNode noWrapNode aheadNode
    aboveNode stopNode
    bytesNode offsetsNode shiftedNode advanceNode baseNode vertexMaskNode
      belowBoundNode
    atBoundNode restReachesNode gapNode lastByteNode restNode partialSizeNode
      noRestNode boundNode
    leftNode noBoundNode pastEndNode wholeNode offsetNode pitchNode
  refine ⟨rfl, ?_⟩
  intro C field x y formed bound currents starts
  have fields {r : Ref} {f : Stream.Field}
      (found : g.op? r = some (.stream a.stream.toUInt8 f)) :
        g.Holds C r fun _ => field f := by
    refine .stream formed found ?_
    intro call inside
    obtain ⟨st, bound, same⟩ := bound call inside
    exact ⟨st, bound, same f⟩
  have pitches := fields pitchNode
  have wholes := fields wholeNode
  have partials := fields partialSizeNode
  have sizes := fields sizeNode
  have offsetWords := Graph.Holds.word (C := C) formed offsetNode
  have pasts := Graph.Holds.binary formed pastEndNode wholes starts (by simp)
  have lefts := Graph.Holds.binary formed leftNode wholes starts (by simp)
  have bounds :=
    (Graph.Holds.select formed boundNode pasts
      (.word formed noBoundNode) lefts).ext fun _ => Word.select_decide _ _ _
  have rests :=
    (Graph.Holds.select formed restNode pasts
      (.word formed noRestNode) partials).ext fun _ => Word.select_decide _ _ _
  have gaps := Graph.Holds.binary formed gapNode rests offsetWords (by simp)
  have reaches :=
    Graph.Holds.binary formed restReachesNode (.word formed lastByteNode) gaps
      (by simp)
  have equals := Graph.Holds.binary formed atBoundNode currents bounds (by simp)
  have belows :=
    Graph.Holds.binary formed belowBoundNode currents bounds (by simp)
  have vertexMasks :=
    (Graph.Holds.select formed vertexMaskNode equals reaches belows).ext
    fun _ => (Word.select_decide _ _ _).trans (apply_ite Word.ofBool _ _ _).symm
  have bases := Graph.Holds.binary formed baseNode starts pitches (by simp)
  have advances :=
    Graph.Holds.binary formed advanceNode currents pitches (by simp)
  have shifts :=
    Graph.Holds.binary formed shiftedNode advances offsetWords (by simp)
  have places := Graph.Holds.binary formed offsetsNode bases shifts (by simp)
  have stops :=
    Graph.Holds.binary formed stopNode places (.word formed bytesNode) (by simp)
  have aboves :=
    Graph.Holds.binary formed aboveNode offsetWords places (by simp)
  have aheads := Graph.Holds.binary formed aheadNode places stops (by simp)
  have noWraps := Graph.Holds.binary formed noWrapNode aboves aheads (by simp)
  have shorts := Graph.Holds.binary formed shortNode stops sizes (by simp)
  have inBuffers :=
    Graph.Holds.binary formed inBufferNode noWraps shorts (by simp)
  have masks :=
    Graph.Holds.binary formed maskNode vertexMasks inBuffers (by simp)
  refine ⟨places, masks.ext ?_⟩
  intro i
  simp only [Binary.apply, Word.ofBool_and, Bool.and_assoc]
  rfl

theorem indexedWindow_does (a : Attribute) (indices : Ref) (checked : Bool) :
    Build.Does [indices] (indexedWindow a indices checked)
      (fun w => w.offsets :: w.mask.toList) fun g w =>
        w.stream = a.stream.toUInt8 ∧ w.mask.isSome = checked ∧
        ∀ (v : View) streams reach x,
          g.WellFormed → streams a.stream.toUInt8 →
          g.Holds (v.Shows streams reach) indices x →
          g.Holds (v.Shows streams reach) w.offsets
              (fun i =>
                indexedOffset a (v.field a.stream.toUInt8) (x i)
                (v.argument .startVertex)) ∧
            ∀ mask ∈ w.mask, g.Holds (v.Shows streams reach) mask
              fun i => Word.ofBool
                (indexedInside a (v.field a.stream.toUInt8) (x i)
                  (v.argument .startVertex)) := by
  unfold indexedWindow
  dsimp only
  refine .bind (.value (by simp [Op.operands])) fun pitch => ?_
  refine .bind (.value (by simp [Op.operands])) fun start => ?_
  refine .bind (.value (by simp [Op.operands])) fun vertex => ?_
  refine .bind (.value (by simp [Op.operands])) fun vertexBase => ?_
  refine .bind (.value (by simp [Op.operands])) fun offset => ?_
  refine .bind (.value (by simp [Op.operands])) fun offsets => ?_
  cases checked with
  | false =>
      refine .pure (by simp) ?_
      intro g offsetsNode offsetNode baseNode vertexNode startNode pitchNode
      refine ⟨rfl, rfl, ?_⟩
      intro v streams reach x formed seen indexed
      have starts : g.Holds (v.Shows streams reach) start _ :=
        .shownArgument formed startNode
      have pitches : g.Holds (v.Shows streams reach) pitch _ :=
        .shownField formed seen pitchNode
      have vertices :=
        Graph.Holds.binary formed vertexNode indexed starts (by simp)
      have bases :=
        Graph.Holds.binary formed baseNode vertices pitches (by simp)
      have places :=
        Graph.Holds.binary formed offsetsNode bases (.word formed offsetNode)
          (by simp)
      exact ⟨places, by simp⟩
  | true =>
      refine .bind (.value (by simp [Op.operands])) fun whole => ?_
      refine .bind (.value (by simp [Op.operands])) fun ahead => ?_
      refine .bind (.value (by simp [Op.operands])) fun below => ?_
      refine .bind (.value (by simp [Op.operands])) fun inRange => ?_
      refine .bind (.value (by simp [Op.operands])) fun size => ?_
      refine .bind (.value (by simp [Op.operands])) fun bytes => ?_
      refine .bind (.value (by simp [Op.operands])) fun stop => ?_
      refine .bind (.value (by simp [Op.operands])) fun above => ?_
      refine .bind (.value (by simp [Op.operands])) fun longer => ?_
      refine .bind (.value (by simp [Op.operands])) fun noWrap => ?_
      refine .bind (.value (by simp [Op.operands])) fun short => ?_
      refine .bind (.value (by simp [Op.operands])) fun inBuffer => ?_
      refine .bind (.value (by simp [Op.operands])) fun mask => ?_
      refine .pure (by simp) ?_
      intro g maskNode inBufferNode shortNode noWrapNode longerNode aboveNode
        stopNode bytesNode sizeNode inRangeNode belowNode aheadNode wholeNode
          offsetsNode offsetNode baseNode
        vertexNode startNode pitchNode
      refine ⟨rfl, rfl, ?_⟩
      intro v streams reach x formed seen indexed
      have starts : g.Holds (v.Shows streams reach) start _ :=
        .shownArgument formed startNode
      have pitches : g.Holds (v.Shows streams reach) pitch _ :=
        .shownField formed seen pitchNode
      have wholes : g.Holds (v.Shows streams reach) whole _ :=
        .shownField formed seen wholeNode
      have sizes : g.Holds (v.Shows streams reach) size _ :=
        .shownField formed seen sizeNode
      have vertices :=
        Graph.Holds.binary formed vertexNode indexed starts (by simp)
      have bases :=
        Graph.Holds.binary formed baseNode vertices pitches (by simp)
      have places :=
        Graph.Holds.binary formed offsetsNode bases (.word formed offsetNode)
          (by simp)
      have aheads :=
        Graph.Holds.binary formed aheadNode indexed vertices (by simp)
      have belows :=
        Graph.Holds.binary formed belowNode vertices wholes (by simp)
      have inRanges :=
        Graph.Holds.binary formed inRangeNode aheads belows (by simp)
      have stops :=
        Graph.Holds.binary formed stopNode places (.word formed bytesNode)
          (by simp)
      have aboves := Graph.Holds.binary formed aboveNode bases places (by simp)
      have longers :=
        Graph.Holds.binary formed longerNode places stops (by simp)
      have noWraps :=
        Graph.Holds.binary formed noWrapNode aboves longers (by simp)
      have shorts := Graph.Holds.binary formed shortNode stops sizes (by simp)
      have inBuffers :=
        Graph.Holds.binary formed inBufferNode noWraps shorts (by simp)
      have masks :=
        Graph.Holds.binary formed maskNode inRanges inBuffers (by simp)
      refine ⟨places, ?_⟩
      intro mask' same
      obtain rfl := Option.mem_some.mp same
      refine masks.ext ?_
      intro i
      simp only [Binary.apply, Word.ofBool_and, Bool.and_assoc]
      rfl

end Fetch
end VertexFetch
