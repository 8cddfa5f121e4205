import VertexFetch.Format
import VertexFetch.IndexWidth
import VertexFetch.Lanes

namespace VertexFetch

def maxAttributes : Nat := 32

def maxStreams : Nat := 32

/-- A set of the four components, the first in the lowest bit. -/
abbrev ComponentSet := BitVec 4

namespace ComponentSet

def ofBits (bits : UInt8) : ComponentSet := bits.toBitVec.setWidth 4

def contains (s : ComponentSet) (component : Nat) : Bool := s.getLsbD component

def card (s : ComponentSet) : Nat := (List.range 4).countP s.contains

end ComponentSet

/-- What a packed component is filled with. `skip` takes its place and writes
nothing. -/
inductive Source where
  | skip
  | memory
  | zero
  | oneFloat
  | oneInt
  deriving DecidableEq, Hashable, Repr

/-- How often an attribute advances: at every vertex, or once in `step`
instances. With step 0 it never does. -/
inductive Rate where
  | perVertex
  | perInstance (step : UInt32)
  deriving DecidableEq, Hashable, Repr

/-- How memory is read: one masked gather for each four bytes of an attribute,
or one load of the whole attribute for each lane. -/
inductive Strategy where
  | gather
  | linear
  deriving DecidableEq, Hashable, Repr

def Strategy.name : Strategy → String
  | .gather => "Gather"
  | .linear => "Linear"

structure Attribute where
  stream : UInt32
  offset : UInt32
  format : Format
  packing : ComponentSet := BitVec.allOnes 4
  sources : Vector Source 4 := Vector.replicate 4 .memory
  rate : Rate := .perVertex
  deriving DecidableEq, Hashable

structure Layout where
  width : IndexWidth
  attributes : List Attribute
  /-- Reads past the end of a stream or of the indices give zero. -/
  checked : Bool := true
  /-- The index value that ends a strip. -/
  cut : Option UInt32 := none
  strategy : Strategy := .gather
  length_le : attributes.length ≤ maxAttributes
  stream_lt : ∀ a ∈ attributes, a.stream.toNat < maxStreams
  deriving DecidableEq, Hashable

inductive LayoutError where
  | tooManyAttributes (count : Nat)
  | streamOutOfRange (position : Nat) (stream : UInt32)
  deriving DecidableEq, Repr

def LayoutError.message : LayoutError → String
  | .tooManyAttributes count =>
      s!"vertex layout has {count} elements, at most {maxAttributes} are supported"
  | .streamOutOfRange position stream =>
      s!"element {position} references stream {stream}, at most {maxStreams} streams are supported"

/-- A layout of the given attributes, checked for their number and then for
their streams. The error names the first attribute whose stream is out of
range. -/
def Layout.ofAttributes (width : IndexWidth) (attributes : List Attribute) :
    Except LayoutError Layout :=
  if length_le : attributes.length ≤ maxAttributes then
    match h : attributes.find? fun a => maxStreams ≤ a.stream.toNat with
    | some a => .error (.streamOutOfRange (attributes.idxOf a) a.stream)
    | none =>
        .ok { width, attributes, length_le
              stream_lt := by simpa using List.find?_eq_none.mp h }
  else .error (.tooManyAttributes attributes.length)

end VertexFetch
