import StreamStats.Word

/-! Buses name the values that cells exchange: a pin is one element of one cell's output, a bus an
ordered list of pins of any cells. A bus whose pins lie at even distances in one cell is also
described by a progression, which is what a loop can address. -/

namespace StreamStats

inductive CellKind where
  | input
  | constant
  | delay
  | binary
  | accumulator
  deriving DecidableEq

namespace CellKind

def word : CellKind → String
  | input => "input"
  | constant => "constant"
  | delay => "delay"
  | binary => "binary"
  | accumulator => "accumulator"

end CellKind

inductive CircuitError where
  | unknownCell (cell : Nat)
  | elementOutOfRange (cell element size : Nat)
  | widthMismatch (lhs rhs : Nat)
  | broadcastMismatch (length width : Nat)
  | delayOutOfRange (delay window : Nat)
  | emptyCell (kind : CellKind)
  | sampleSize (expected actual : Nat)
  | noInput
  deriving DecidableEq

namespace CircuitError

def message : CircuitError → String
  | unknownCell cell => s!"Unknown node {cell}"
  | elementOutOfRange cell element size =>
    s!"Element {element} out of range for node {cell} of size {size}"
  | widthMismatch lhs rhs => s!"Operand width mismatch: {lhs} vs {rhs}"
  | broadcastMismatch length width => s!"Cannot broadcast {length} coordinates to width {width}"
  | delayOutOfRange delay window => s!"Delay {delay} out of range for window {window}"
  | emptyCell kind => "Empty " ++ kind.word ++ " node"
  | sampleSize expected actual => s!"Input size mismatch: expected {expected}, got {actual}"
  | noInput => "Model has no input node"

end CircuitError

structure Pin where
  cell : Nat
  element : Nat
  deriving DecidableEq

abbrev Bus := List Pin

/-- The elements `start`, `start + stride`, `start + 2 * stride`, … of one cell. -/
structure Progression where
  cell : Nat
  start : Nat
  stride : Int
  length : Nat
  deriving DecidableEq

namespace Bus

def range (cell start length : Nat) : Bus :=
  (List.range' start length).map (Pin.mk cell)

@[simp] theorem length_range (cell start length : Nat) :
    (range cell start length).length = length := by
  simp [range]

def slice? (b : Bus) (start length : Nat) : Option Bus :=
  if start + length ≤ b.length then some ((b.drop start).take length) else none

/-- A single pin is repeated; a bus of the right width already is left alone. -/
def broadcast (b : Bus) (width : Nat) : Except CircuitError Bus :=
  match b with
  | [pin] => .ok (List.replicate width pin)
  | b => if b.length = width then .ok b else .error (.broadcastMismatch b.length width)

/-- The distance from the first pin to the second, one when there is no second. -/
def firstStride : Bus → Int
  | p :: q :: _ => signedIndex q.element - signedIndex p.element
  | _ => 1

/-- Every pin lies on the given cell, each `stride` after the one before it, from `position` on. -/
def follows (cell : Nat) (stride : Int) : Int → Bus → Bool
  | _, [] => true
  | position, p :: ps =>
    p.cell == cell && signedIndex p.element == position && follows cell stride
    (position + stride) ps

def progression? (b : Bus) : Option Progression :=
  match b with
  | [] => none
  | p :: _ =>
    if follows p.cell b.firstStride (signedIndex p.element) b then
      some ⟨p.cell, p.element, b.firstStride, b.length⟩
    else none

end Bus

end StreamStats
