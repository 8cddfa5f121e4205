import VertexFetch.Code
import VertexFetch.Single.Decimal

namespace VertexFetch

/-- Literals are written positionally from 0.0001 up to 10 ^ 16, and a tie goes
up. -/
def literalStyle : Decimal.Style where
  lowest := -4
  below := 16
  tieUp := true

def padded (width : Nat) (s : String) : String :=
  s ++ String.ofList (List.replicate (width - s.length) ' ')

def bracketed (items : List String) : String :=
  "[" ++ ", ".intercalate items ++ "]"

def Binary.name : Binary → String
  | .add => "add.i"
  | .sub => "sub.i"
  | .mul => "mul.i"
  | .divSigned => "div.i"
  | .divUnsigned => "div.u"
  | .and => "and.i"
  | .mulSingle => "mul.f"
  | .eq => "eq.i"
  | .ltSigned => "lt.i"
  | .gtSigned => "gt.i"
  | .ltUnsigned => "lt.u"
  | .leUnsigned => "le.u"

def Rounding.name : Rounding → String
  | .signed => "cast.f"
  | .unsigned => "cast.uf"

def Widening.name : Widening → String
  | .sign8 => "Sign8"
  | .sign16 => "Sign16"
  | .half => "Half"

def Target.text : Target → String
  | .row element component => s!"Row({element}, {component})"
  | .vertexId => "VertexId"
  | .cutMask => "CutMask"

/-- Channel count, sign and width, as in 4xu8. -/
def ChannelLoad.text (l : ChannelLoad) : String :=
  toString l.channels ++ "x" ++ (if l.signed then "s" else "u") ++
    toString l.bits

namespace Op

/-- What an operation does, apart from its operands and what is fixed in it. -/
inductive Kind where
  | argument
  | stream
  | laneNumbers
  | single
  | word
  | binary (f : Binary)
  | round (f : Rounding)
  | select
  | extract
  | insert
  | shuffle
  | permute
  | shuffleBytes
  | widen
  | indices
  | indicesMasked
  | index
  | load
  | gather
  deriving DecidableEq, Repr

def Kind.name : Kind → String
  | .argument => "param"
  | .stream => "stream"
  | .laneNumbers => "lane_id"
  | .single => "lit.f"
  | .word => "lit.i"
  | .binary f => f.name
  | .round f => f.name
  | .select => "select"
  | .extract => "extract"
  | .insert => "insert"
  | .shuffle => "shuffle"
  | .permute => "permute"
  | .shuffleBytes => "shuffle.b"
  | .widen => "expand"
  | .indices => "load.idx"
  | .indicesMasked => "load.idx.masked"
  | .index => "load.idx.lane"
  | .load => "load.vtx"
  | .gather => "gather"

variable {ρ : Type}

def kind : Op ρ → Kind
  | .argument _ => .argument
  | .stream _ _ => .stream
  | .laneNumbers => .laneNumbers
  | .single _ => .single
  | .word _ => .word
  | .binary f _ _ => .binary f
  | .round f _ => .round f
  | .select _ _ _ => .select
  | .extract _ _ => .extract
  | .insert _ _ _ => .insert
  | .shuffle _ _ _ => .shuffle
  | .permute _ _ => .permute
  | .shuffleBytes _ _ => .shuffleBytes
  | .widen _ _ => .widen
  | .indices _ => .indices
  | .indicesMasked _ _ => .indicesMasked
  | .index _ _ _ => .index
  | .load _ _ _ _ => .load
  | .gather _ _ _ _ => .gather

def name (op : Op ρ) : String := op.kind.name

def immediates : Op ρ → List String
  | .argument a => [a.name]
  | .stream s field => ["#" ++ toString s, field.name]
  | .single bits => [Single.text literalStyle bits]
  | .word w => [toString w.toInt32.toInt]
  | .extract lane _ | .insert lane _ _ => [bracketed [toString lane]]
  | .shuffle _ _ s | .permute _ s => [bracketed (s.toList.map toString)]
  | .shuffleBytes _ s => [bracketed (s.toList.map fun m => toString m.toInt)]
  | .widen k _ => [k.name]
  | .indices w | .indicesMasked w _ | .index w _ _ => [w.name]
  | .load s l _ _ => ["#" ++ toString s, l.text]
  | .gather s bytes _ _ => ["#" ++ toString s, toString bytes ++ "b"]
  | .laneNumbers | .binary _ _ _ | .round _ _ | .select _ _ _ => []

end Op

namespace Instr

def spaced (items : List String) : String :=
  String.join (items.map fun item => " " ++ item)

def registerList : List Nat → String
  | [] => ""
  | rs => " " ++ ", ".intercalate (rs.map fun r => "r" ++ toString r)

def text : Instr → String
  | .compute out op =>
      "r" ++ padded 3 (toString out) ++ " = " ++ padded 16 op.name ++
        spaced op.immediates ++ registerList op.operands
  | .store target source =>
      "       " ++ padded 16 "store" ++ " " ++ target.text ++
        registerList [source]

end Instr

def Code.lines (code : Code) : List String :=
  code.instrs.zipIdx.map fun (i, n) =>
    let number := toString n
    String.ofList (List.replicate (4 - number.length) ' ') ++ number ++ ": " ++
      i.text

end VertexFetch
