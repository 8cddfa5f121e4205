import Std.Data.HashMap
import VertexFetch.Kernel

namespace VertexFetch

/-- Where keys come from: a key is taken for each new entry of a table and goes
back when the entry is removed. -/
structure KeySupply (κ : Type) where
  State : Type
  start : State
  take : State → κ × State
  giveBack : State → κ → State

/-- Keys in the order of the natural numbers, none of them used again. -/
def KeySupply.counting : KeySupply Nat where
  State := Nat
  start := 0
  take next := (next, next + 1)
  giveBack next _ := next

variable {κ : Type} [DecidableEq κ] [Hashable κ] {supply : KeySupply κ}

structure Cache (supply : KeySupply κ) where
  kernels : Std.HashMap κ Kernel := ∅
  keys : Std.HashMap Layout κ := ∅
  state : supply.State := supply.start

namespace Cache

def size (c : Cache supply) : Nat := c.kernels.size

def isEmpty (c : Cache supply) : Bool := c.kernels.isEmpty

def get? (c : Cache supply) (key : κ) : Option Kernel := c.kernels[key]?

/-- The key of the layout's kernel, which is made if there is none. -/
def insert (c : Cache supply) (l : Layout) :
    Except Unsupported κ × Cache supply :=
  match c.keys[l]? with
  | some key => (.ok key, c)
  | none =>
      match l.compile with
      | .error e => (.error e, c)
      | .ok kernel =>
          let (key, state) := supply.take c.state
          (.ok key,
            { kernels := c.kernels.insert key kernel
              keys := c.keys.insert l key
              state })

/-- Whether the key had a kernel, and the cache without it. -/
def erase (c : Cache supply) (key : κ) : Bool × Cache supply :=
  if c.kernels.contains key then
    (true,
      { kernels := c.kernels.erase key
        keys := c.keys.filter fun _ k => k != key
        state := supply.giveBack c.state key })
  else (false, c)

end Cache
end VertexFetch
