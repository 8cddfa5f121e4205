import VertexFetch.Pass.DeadStores
import VertexFetch.Pass.Folding
import VertexFetch.Pass.Promotion
import VertexFetch.Pass.Selects
import VertexFetch.Pass.Sharing

namespace VertexFetch

inductive Pass where
  | selects
  | sharing
  | promotion
  | folding
  | deadStores
  deriving DecidableEq, Repr

namespace Pass

def name : Pass → String
  | .selects => "SimplifySelects"
  | .sharing => "HashCons"
  | .promotion => "PromoteLanes"
  | .folding => "Peephole"
  | .deadStores => "EliminateDead"

def run : Pass → Program → Program
  | .selects => Program.simplifySelects
  | .sharing => Program.share
  | .promotion => Program.promoteLanes
  | .folding => Program.fold
  | .deadStores => Program.dropDeadStores

/-- Promotion comes once, when sharing has brought equal scalars together; the
others then go round twice, as folding makes new selects and new equal nodes. -/
def schedule : List Pass :=
  let round := [.selects, .sharing, .folding, .deadStores]
  [.selects, .sharing, .promotion] ++ round ++ round

end Pass
end VertexFetch
