import StreamStats.Circuit
import StreamStats.Code

/-! Code for circuits. The output of every cell lives in a segment; input cells share the first one.
Each cell that computes gets an internal routine, and one external routine calls these in the order
of the cells and gathers the requested output into the last segment. Buses that progress evenly and
are wider than the threshold become loops, all else is straight-line code. -/

namespace StreamStats

inductive CodegenError where
  | noInput
  | inputSizes (expected actual : Nat)
  | emptyOutput
  | circuit (error : CircuitError)
  deriving DecidableEq

namespace CodegenError

def message : CodegenError → String
  | noInput => "Model has no input node"
  | inputSizes expected actual => s!"Input node size mismatch: expected {expected}, got {actual}"
  | emptyOutput => "Model output is empty"
  | circuit error => error.message

end CodegenError

namespace Codegen

structure Options where
  programName : String := "features"
  /-- The widest bus that becomes straight-line code. -/
  unrollLimit : Nat := 4
  deriving DecidableEq

def entryName (programName : String) : String := programName ++ "_predict"

def cellRoutineName (programName : String) (cell : Nat) : String :=
  programName ++ "_node" ++ toString cell

variable {α : Type}

/-- The segment of each cell, `next` being the first not in use. -/
def homes (next : Nat) : List (Cell α) → List Nat
  | [] => []
  | .input _ :: cells => 0 :: homes next cells
  | _ :: cells => next :: homes (next + 1) cells

def cellSegment? [Scalar α] (id : Nat) (cell : Cell α) : Option (Segment α) :=
  let name := "node" ++ toString id
  match cell with
  | .input _ => none
  | .constant values => some ⟨name, .constant, values.toArray⟩
  | .delay _ _ | .accumulator _ => some (.zeros name .state cell.size)
  | .binary _ _ _ => some (.zeros name .scratch cell.size)

/-- Where cells live and which buses become loops. -/
structure Layout where
  homes : Array Nat
  unrollLimit : Nat

namespace Layout

def home (l : Layout) (cell : Nat) : Nat := (l.homes[cell]?).getD 0

def element (l : Layout) (p : Pin) : Address := .fixed (l.home p.cell) p.element

/-- An even progression as the address of a loop. -/
def moving? (l : Layout) (b : Bus) : Option Address :=
  b.progression?.map fun p => ⟨l.home p.cell, signedIndex p.start, p.stride⟩

def copyElement (r : Reg) (dst src : Address) : Block α :=
  [.load r src 1, .store dst (.reg r) 1]

def combineElement (r : Reg) (op : Arith) (dst lhs rhs : Address) : Block α :=
  [.load r lhs 1, .load (r + 1) rhs 1, .binary (r + 2) op (.reg r) (.reg (r + 1)),
    .store dst (.reg (r + 2)) 1]

/-- Copy a bus to the start of a segment, with registers from `r` on. -/
def copy (l : Layout) (r : Reg) (dst : Nat) (src : Bus) : Block α :=
  match l.moving? src, decide (l.unrollLimit < src.length) with
  | some a, true => [.loop src.length 1 true (copyElement r ⟨dst, 0, 1⟩ a)]
  | _, _ => src.zipIdx.flatMap fun (p, i) => copyElement (r + i) (.fixed dst i) (l.element p)

def combine (l : Layout) (op : Arith) (dst : Nat) (lhs rhs : Bus) : Block α :=
  match l.moving? lhs, l.moving? rhs, decide (l.unrollLimit < lhs.length) with
  | some a, some b, true => [.loop lhs.length 1 true (combineElement 0 op ⟨dst, 0, 1⟩ a b)]
  | _, _, _ => (lhs.zip rhs).zipIdx.flatMap fun ((p, q), i) =>
      combineElement (3 * i) op (.fixed dst i) (l.element p) (l.element q)

/-- Move the blocks of a delay line one place back, from the oldest end on so that nothing is
overwritten before it has moved. Also returns the first register not used. -/
def shift (l : Layout) (segment width window : Nat) : Block α × Reg :=
  let moved := width * (window - 1)
  let last : Int := ((width * window : Nat) : Int) - 1
  let dst : Address := ⟨segment, last, -1⟩
  let src : Address := ⟨segment, last - width, -1⟩
  if moved = 0 then ([], 0)
  else if l.unrollLimit < moved then ([.loop moved 1 false (copyElement 0 dst src)], 1)
  else
    ((List.range moved).flatMap fun i =>
      copyElement i ⟨segment, dst.index i 0, 0⟩ ⟨segment, src.index i 0, 0⟩, moved)

/-- The code that brings a cell's segment up to date; none for cells that compute nothing. -/
def cellBody? (l : Layout) (id : Nat) : Cell α → Option (Block α)
  | .input _ | .constant _ => none
  | .delay source window =>
    let (moves, r) := l.shift (l.home id) source.length window
    some (moves ++ l.copy r (l.home id) source)
  | .binary op lhs rhs => some (l.combine op (l.home id) lhs rhs)
  | .accumulator source =>
    some (l.combine .add (l.home id) (Bus.range id 0 source.length) source)

def cellRoutines (l : Layout) (programName : String) (cells : List (Cell α)) : List (Routine α) :=
  cells.zipIdx.filterMap fun (cell, id) =>
    (l.cellBody? id cell).map (.ofBody (cellRoutineName programName id) .internal)

end Layout

/-- What a circuit has to be for code to exist: it has an input, all of one size, and an output in
range. -/
def admits (c : Circuit α) (output : Bus) : Except CodegenError Nat := do
  let size ← match c.inputSize? with
    | some size => pure size
    | none => throw .noInput
  if output = [] then
    throw .emptyOutput
  match c.check output with
  | .ok _ => pure ()
  | .error e => throw (.circuit e)
  match c.cells.toList.findSome? fun cell => cell.inputSize?.filter (· ≠ size) with
  | some actual => throw (.inputSizes size actual)
  | none => return size

/-- The program that computes `output`, given the size of the sample. -/
def emit [Scalar α] (c : Circuit α) (output : Bus) (o : Options) (inputSize : Nat) : Program α :=
  let cells := c.cells.toList
  let layout : Layout := ⟨(homes 1 cells).toArray, o.unrollLimit⟩
  let own := cells.zipIdx.filterMap fun (cell, id) => cellSegment? id cell
  let routines := layout.cellRoutines o.programName cells
  let calls := routines.map fun r => .call r.name
  { name := o.programName
    segments :=
      (Segment.zeros "input" .input inputSize :: own ++
        [Segment.zeros "output" .output output.length]).toArray
    routines := routines ++
      [.ofBody (entryName o.programName) .external
        (calls ++ layout.copy 0 (own.length + 1) output)] }

def program [Scalar α] (c : Circuit α) (output : Bus) (o : Options) :
    Except CodegenError (Program α) := do
  return emit c output o (← admits c output)

end Codegen
end StreamStats
