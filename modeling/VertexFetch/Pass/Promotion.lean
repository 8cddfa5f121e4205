import Std.Data.HashMap
import VertexFetch.Graph.Sweep

namespace VertexFetch

inductive Uniformity where
  | always
  | ifOperands
  | never
  deriving DecidableEq, Repr

def Op.uniformity {ρ : Type} : Op ρ → Uniformity
  | .argument _ | .stream _ _ | .single _ | .word _ | .extract _ _
  | .index _ _ _ => .always
  | .binary _ _ _ | .round _ _ | .select _ _ _ => .ifOperands
  | .laneNumbers | .insert _ _ _ | .shuffle _ _ _ | .permute _ _
  | .shuffleBytes _ _ | .widen _ _ | .indices _ | .indicesMasked _ _
  | .load _ _ _ _ | .gather _ _ _ _ => .never

abbrev UniformMemo := Std.HashMap Ref Bool

namespace Graph

mutual

/-- Whether a node is known to have the same word in every lane. -/
def isUniform (g : Graph) (r : Ref) (memo : UniformMemo) : Bool × UniformMemo :=
  match memo[r]? with
  | some known => (known, memo)
  | none =>
      let (answer, memo) :=
        match g.op? r with
        | none => (false, memo)
        | some op =>
            match op.uniformity with
            | .always => (true, memo)
            | .never => (false, memo)
            | .ifOperands => g.allUniform r op.operands memo
      (answer, memo.insert r answer)
termination_by (r, 1, 0)

def allUniform (g : Graph) (bound : Ref) (rs : List Ref) (memo : UniformMemo) :
    Bool × UniformMemo :=
  match rs with
  | [] => (true, memo)
  | r :: rest =>
      if r < bound then
        let (first, memo) := g.isUniform r memo
        let (others, memo) := g.allUniform bound rest memo
        (first && others, memo)
      else (false, memo)
termination_by (bound, 0, rs.length)

end

/-- What stands for a lane of `source`. An insertion into another lane is passed
by; where nothing more is known the lane is taken from the node that was
reached. -/
def seekLane (g : Graph) (lane : UInt8) (extracted source : Ref)
    (memo : UniformMemo) : Replacement × UniformMemo :=
  let stop : Replacement :=
    if source = extracted then .keep else .create (.extract lane source)
  let (uniform, memo) := g.isUniform source memo
  if uniform then (.reuse source, memo)
  else
    match g.op? source with
    | some .laneNumbers => (.create (.word lane.toUInt32), memo)
    | some (.insert l vector scalar) =>
        if l = lane then
          let (uniform, memo) := g.isUniform scalar memo
          (if uniform then .reuse scalar else stop, memo)
        else if vector < source then g.seekLane lane extracted vector memo
        else (stop, memo)
    | _ => (stop, memo)
termination_by source

def promotionRule (g : Graph) (memo : UniformMemo) (r : Ref) :
    Replacement × UniformMemo :=
  match g.op? r with
  | some (.extract lane source) => g.seekLane lane source source memo
  | _ => (.keep, memo)

end Graph

def Program.promoteLanes (p : Program) : Program :=
  p.sweepWith Graph.promotionRule ∅

end VertexFetch
