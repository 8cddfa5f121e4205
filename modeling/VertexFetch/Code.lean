import VertexFetch.Op

namespace VertexFetch

inductive Instr where
  | compute (out : Nat) (op : Op Nat)
  | store (target : Target) (source : Nat)
  deriving DecidableEq, Repr

def Instr.output? : Instr → Option Nat
  | .compute out _ => some out
  | .store _ _ => none

def Instr.operands : Instr → List Nat
  | .compute _ op => op.operands
  | .store _ source => [source]

structure Code where
  instrs : List Instr
  registers : Nat
  deriving DecidableEq, Repr

end VertexFetch
