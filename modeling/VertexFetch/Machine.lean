import VertexFetch.Code
import VertexFetch.Op.Eval

namespace VertexFetch

structure Machine where
  registers : Array Lanes
  batch : Batch

namespace Machine

def start (registers : Nat) (batch : Batch) : Machine :=
  ⟨Array.replicate registers .zero, batch⟩

def read (m : Machine) (register : Nat) : Except Fault Lanes :=
  match m.registers[register]? with
  | some v => .ok v
  | none => .error .outOfBounds

def write (m : Machine) (register : Nat) (v : Lanes) : Except Fault Machine :=
  if register < m.registers.size then
    .ok { m with registers := m.registers.setIfInBounds register v }
  else .error .outOfBounds

def store (m : Machine) (target : Target) (v : Lanes) : Except Fault Machine :=
  match m.batch.store? target v with
  | some batch => .ok { m with batch }
  | none => .error .outOfBounds

def step (call : Call) (m : Machine) : Instr → Except Fault Machine
  | .compute out op => do m.write out (← op.eval call m.read)
  | .store target source => do m.store target (← m.read source)

/-- The machine after the instructions up to the first that faults, and that
fault. -/
def run (call : Call) : List Instr → Machine → Machine × Option Fault
  | [], m => (m, none)
  | i :: rest, m =>
      match m.step call i with
      | .ok next => run call rest next
      | .error fault => (m, some fault)

end Machine

def Code.run (code : Code) (call : Call) (batch : Batch) :
    Machine × Option Fault :=
  (Machine.start code.registers batch).run call code.instrs

end VertexFetch
