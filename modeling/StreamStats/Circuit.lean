import StreamStats.Bus
import StreamStats.Scalar

/-! Dataflow circuits. Cells are placed one after another and read only cells placed before them, so
a circuit has no cycle and is listed in the order in which its cells settle. -/

namespace StreamStats

inductive Cell (α : Type) where
  /-- Shows the sample of the current step. -/
  | input (size : Nat)
  | constant (values : List α)
  /-- Shows what `source` carried in the last `window` steps, the newest first, zeros before the
  start. -/
  | delay (source : Bus) (window : Nat)
  | binary (op : Arith) (lhs rhs : Bus)
  /-- Adds up what `source` carries over all steps. -/
  | accumulator (source : Bus)

namespace Cell

variable {α : Type}

def kind : Cell α → CellKind
  | input _ => .input
  | constant _ => .constant
  | delay _ _ => .delay
  | binary _ _ _ => .binary
  | accumulator _ => .accumulator

/-- The number of elements of the output, and with it every number of elements or values computed
from sizes, is taken to fit a word: a window near 2^63 over two pins is outside of what is
modelled. -/
def size : Cell α → Nat
  | input size => size
  | constant values => values.length
  | delay source window => source.length * window
  | binary _ lhs _ => lhs.length
  | accumulator source => source.length

def sources : Cell α → List Bus
  | input _ | constant _ => []
  | delay source _ | accumulator source => [source]
  | binary _ lhs rhs => [lhs, rhs]

def inputSize? : Cell α → Option Nat
  | input size => some size
  | _ => none

/-- What can be refused without a look at the other cells. -/
def checkShape : Cell α → Except CircuitError Unit
  | input size => if size = 0 then .error (.emptyCell .input) else .ok ()
  | constant values => if values = [] then .error (.emptyCell .constant) else .ok ()
  | delay source window =>
    if source = [] then .error (.emptyCell .delay)
    else if window = 0 then .error (.delayOutOfRange 0 0)
    else .ok ()
  | binary _ lhs rhs =>
    if lhs = [] then .error (.emptyCell .binary)
    else if lhs.length ≠ rhs.length then .error (.widthMismatch lhs.length rhs.length)
    else .ok ()
  | accumulator source => if source = [] then .error (.emptyCell .accumulator) else .ok ()

/-- The part of `output`, the bus of a delay cell over `source`, that shows the source `delay` steps
ago. -/
def delayTap (source : Bus) (window : Nat) (output : Bus) (delay : Nat) : Except CircuitError Bus :=
  if window ≤ delay then .error (.delayOutOfRange delay window)
  else match output.slice? (delay * source.length) source.length with
    | some bus => .ok bus
    | none => .error (.delayOutOfRange delay window)

end Cell

structure Circuit (α : Type) where
  cells : Array (Cell α)
  sizes : Array Nat
  /-- The sizes are those of the cells. -/
  sizes_eq : sizes = cells.map Cell.size

namespace Circuit

variable {α : Type}

theorem eq_of_cells_eq {c d : Circuit α} (h : c.cells = d.cells) : c = d := by
  rcases c with ⟨cells, sizes, rfl⟩
  rcases d with ⟨cells', sizes', rfl⟩
  cases h
  rfl

def empty : Circuit α := ⟨#[], #[], by simp⟩

def size (c : Circuit α) : Nat := c.cells.size

def checkPin (c : Circuit α) (p : Pin) : Except CircuitError Unit :=
  match c.sizes[p.cell]? with
  | none => .error (.unknownCell p.cell)
  | some size =>
    if p.element < size then .ok () else .error (.elementOutOfRange p.cell p.element size)

/-- Every pin names an element of a placed cell; the first that does not is the error. -/
def check (c : Circuit α) (b : Bus) : Except CircuitError Unit :=
  b.forM c.checkPin

/-- Append a cell and return the bus of its whole output. -/
def place (c : Circuit α) (cell : Cell α) : Except CircuitError (Bus × Circuit α) := do
  cell.checkShape
  cell.sources.forM c.check
  let size := cell.size
  return (Bus.range c.size 0 size,
    ⟨c.cells.push cell, c.sizes.push size, by simp [c.sizes_eq, size]⟩)

/-- The sample size that the first input cell expects. -/
def inputSize? (c : Circuit α) : Option Nat :=
  c.cells.findSome? Cell.inputSize?

end Circuit

end StreamStats
