import VertexFetch.Graph.Sweep

namespace VertexFetch

namespace Binary

private def always (b : Bool) : Replacement := .create (.word (Word.ofBool b))

/-- The result of two operands of which at most one is a literal, `x` of `a` and
`y` of `b`, where the operation has a law for them. -/
def simplify (f : Binary) (a b : Ref) (x y : Option UInt32) : Replacement :=
  match f with
  | .add =>
      if x = some 0 then .reuse b
      else if y = some 0 then .reuse a
      else .keep
  | .sub =>
      if y = some 0 then .reuse a
      else if a = b then .create (.word 0)
      else .keep
  | .mul =>
      if x = some 0 ∨ y = some 0 then .create (.word 0)
      else if x = some 1 then .reuse b
      else if y = some 1 then .reuse a
      else .keep
  | .divSigned | .divUnsigned =>
      if x = some 0 ∨ y = some 0 then .create (.word 0)
      else if y = some 1 then .reuse a
      else .keep
  | .and =>
      if x = some 0 ∨ y = some 0 then .create (.word 0)
      else if x = some 0xffffffff then .reuse b
      else if y = some 0xffffffff then .reuse a
      else if a = b then .reuse a
      else .keep
  | .mulSingle => .keep
  | .eq => if a = b then always true else .keep
  | .ltSigned | .gtSigned => if a = b then always false else .keep
  | .ltUnsigned => if y = some 0 ∨ a = b then always false else .keep
  | .leUnsigned =>
      if x = some 0 ∨ y = some 0xffffffff ∨ a = b then always true else .keep

/-- The product of two single literals, or a factor beside the single literal
one. Words are no singles here, whatever their bits. -/
def simplifyProduct (a b : Ref) (x y : Option UInt32) : Replacement :=
  match x, y with
  | some x, some y => .create (.single (Single.mul x y))
  | _, _ =>
      if x = some Single.one then .reuse b
      else if y = some Single.one then .reuse a
      else .keep

end Binary

namespace Graph

def single? (g : Graph) (r : Ref) : Option UInt32 :=
  match g.op? r with
  | some (.single bits) => some bits
  | _ => none

def foldOp (g : Graph) : Op Ref → Replacement
  | .binary .mulSingle a b =>
      Binary.simplifyProduct a b (g.single? a) (g.single? b)
  | .binary f a b =>
      match g.literal? a, g.literal? b with
      | some x, some y => .create (.word (f.apply x y))
      | x, y => f.simplify a b x y
  | .round f a =>
      match g.literal? a with
      | some x => .create (.single (f.apply x))
      | none => .keep
  | .extract _ a | .permute a _ =>
      if (g.literal? a).isSome then .reuse a else .keep
  | .shuffle a b _ =>
      if (g.literal? a).isSome ∧ g.literal? a = g.literal? b then .reuse a
      else .keep
  | .shuffleBytes a _ | .widen _ a =>
      if g.literal? a = some 0 then .create (.word 0) else .keep
  | .indicesMasked w mask =>
      if g.literal? mask = some 0 then .create (.word 0)
      else if g.literal? mask = some 0xffffffff then .create (.indices w)
      else .keep
  | .index _ _ valid | .load _ _ _ valid =>
      if g.literal? valid = some 0 then .create (.word 0) else .keep
  | .gather _ bytes _ mask =>
      if g.literal? mask = some 0 ∨ bytes = 0 then .create (.word 0) else .keep
  | _ => .keep

def foldingRule (g : Graph) (r : Ref) : Replacement :=
  match g.op? r with
  | some op => g.foldOp op
  | none => .keep

end Graph

def Program.fold (p : Program) : Program := p.sweep Graph.foldingRule

end VertexFetch
