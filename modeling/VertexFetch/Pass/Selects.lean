import VertexFetch.Graph.Sweep

namespace VertexFetch

namespace Graph

def isMask (g : Graph) (r : Ref) : Bool :=
  match g.op? r with
  | some (.binary f a b) =>
      f.isTest || (f = .and &&
        (if a < r then g.isMask a else false) &&
        if b < r then g.isMask b else false)
  | some (.select _ t f) =>
      (if t < r then g.isMask t else false) &&
        if f < r then g.isMask f else false
  | some (.word w) => w = 0 || w = 0xffffffff
  | _ => false
termination_by r

def selectRule (g : Graph) (r : Ref) : Replacement :=
  match g.op? r with
  | some (.select c t f) =>
      if g.literal? c = some 0 then .reuse f
      else if g.literal? c = some 0xffffffff then .reuse t
      else if t = f then .reuse t
      else
        match g.literal? t, g.literal? f with
        | some x, some y =>
            if x = 0xffffffff ∧ y = 0 ∧ g.isMask c then .reuse c
            else if x = y then .reuse t
            else .keep
        | _, _ => .keep
  | _ => .keep

end Graph

def Program.simplifySelects (p : Program) : Program := p.sweep Graph.selectRule

end VertexFetch
