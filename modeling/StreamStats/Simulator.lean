import StreamStats.Circuit

/-! Running a circuit one sample at a time. Each cell settles on the values of the cells before it,
in the order of placement; delay and accumulator cells also on their own values of the step before.
A refused sample leaves the simulator as it is. -/

namespace StreamStats

abbrev Levels (α : Type) := Array (Array α)

namespace Levels

variable {α : Type} [Scalar α]

def readPin (levels : Levels α) (p : Pin) : α :=
  ((levels[p.cell]?).bind fun values => values[p.element]?).getD 0

def read (levels : Levels α) (b : Bus) : List α :=
  b.map levels.readPin

@[simp] theorem length_read (levels : Levels α) (b : Bus) : (levels.read b).length = b.length := by
  simp [read]

end Levels

namespace Cell

variable {α : Type} [Scalar α]

def initial : Cell α → Array α
  | constant values => values.toArray
  | cell => Array.replicate cell.size 0

/-- What a cell settles on, given the cells before it, the sample and its own last values. -/
def settle (levels : Levels α) (sample : List α) (last : Array α) : Cell α → Array α
  | input _ => sample.toArray
  | constant _ => last
  | delay source window =>
    (levels.read source).toArray ++ last.extract 0 (source.length * (window - 1))
  | binary op lhs rhs => (List.zipWith op.apply (levels.read lhs) (levels.read rhs)).toArray
  | accumulator source => Array.zipWith (· + ·) last (levels.read source).toArray

end Cell

structure Simulator (α : Type) where
  circuit : Circuit α
  levels : Levels α
  steps : Nat

namespace Simulator

variable {α : Type} [Scalar α]

def ofCircuit (c : Circuit α) : Simulator α :=
  ⟨c, c.cells.map Cell.initial, 0⟩

def settleAll (sample : List α) (settled : Levels α) : List (Cell α) → List (Array α) → Levels α
  | cell :: cells, last :: lasts =>
    settleAll sample (settled.push (cell.settle settled sample last)) cells lasts
  | _, _ => settled

def checkSample (c : Circuit α) (sample : List α) : Except CircuitError Unit := do
  if c.inputSize? = none then
    throw .noInput
  c.cells.toList.forM fun cell =>
    match cell.inputSize? with
    | some size =>
      if size = sample.length then .ok () else .error (.sampleSize size sample.length)
    | none => .ok ()

def step (s : Simulator α) (sample : List α) : Except CircuitError (Simulator α) := do
  checkSample s.circuit sample
  return { s with
    levels := settleAll sample #[] s.circuit.cells.toList s.levels.toList
    steps := s.steps + 1 }

def read (s : Simulator α) (b : Bus) : List α := s.levels.read b

/-- Step and read `output`, which is checked before anything moves. -/
def observe (s : Simulator α) (sample : List α) (output : Bus) :
    Except CircuitError (List α × Simulator α) := do
  s.circuit.check output
  let s ← s.step sample
  return (s.read output, s)

end Simulator

end StreamStats
