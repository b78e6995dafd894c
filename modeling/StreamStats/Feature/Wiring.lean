import StreamStats.Circuit
import StreamStats.Feature

/-! The circuit form of a feature. It keeps no sums and no ring: windows are delay cells, running
sums are accumulator cells, and the rest is arithmetic between buses. -/

namespace StreamStats

/-- Placing cells one after another. Cells placed before a failure stay in the circuit. -/
abbrev Assembly (α : Type) := ExceptT FeatureError (StateM (Circuit α))

namespace Assembly

variable {α : Type}

def place (cell : Cell α) : Assembly α Bus := do
  match (← get).place cell with
  | .ok (bus, circuit) =>
    set circuit
    return bus
  | .error e => throw (.circuit e)

def ofCircuit {β : Type} : Except CircuitError β → Assembly α β
  | .ok b => return b
  | .error e => throw (.circuit e)

def binary (op : Arith) (lhs rhs : Bus) : Assembly α Bus := place (.binary op lhs rhs)

def number [Scalar α] (n width : Nat) : Assembly α Bus := do
  let one ← place (.constant [Scalar.ofNat n])
  ofCircuit (one.broadcast width)

/-- What `source` carries now and in each of the `depth - 1` steps before, the newest first. -/
def taps (source : Bus) (depth : Nat) : Assembly α (List Bus) := do
  let output ← place (.delay source depth)
  (List.range depth).mapM fun k => ofCircuit (Cell.delayTap source depth output k)

/-- What `source` carried `delay` steps ago. -/
def ago (source : Bus) (delay : Nat) : Assembly α Bus := do
  let output ← place (.delay source (delay + 1))
  ofCircuit (Cell.delayTap source (delay + 1) output delay)

def sum : List Bus → Assembly α Bus
  | [] => return []
  | bus :: buses => buses.foldlM (binary .add) bus

def squaredDistance (mean bus : Bus) : Assembly α Bus := do
  let d ← binary .sub bus mean
  binary .mul d d

def sumSquaredDistances (mean : Bus) : List Bus → Assembly α Bus
  | [] => return []
  | bus :: buses => do
    let first ← squaredDistance mean bus
    buses.foldlM (fun acc bus => do binary .add acc (← squaredDistance mean bus)) first

end Assembly

namespace Feature

open Assembly

variable {α : Type}

/-- The bus of the feature that this one reads. -/
def sourceBus (id : String) (buses : Nat → Option Bus) (w : Window α) : Assembly α Bus :=
  match buses w.source with
  | some bus => return bus
  | none => throw (.unwiredInput id w.source)

/-- Add the cells of a feature, given the buses of the features before it, and return its own. -/
def wire [Scalar α] (f : Feature α) (buses : Nat → Option Bus) : Assembly α Bus :=
  match f.stage with
  | .input dimension => place (.input dimension)
  | .mean w => do
    let source ← sourceBus f.id buses w
    let n ← number w.size source.length
    let total ← sum (← taps source w.size)
    binary .div total n
  | .incrementalMean w _ => do
    let source ← sourceBus f.id buses w
    let n ← number w.size source.length
    let old ← ago source w.size
    let change ← binary .sub source old
    let total ← place (.accumulator change)
    binary .div total n
  | .variance w => do
    let source ← sourceBus f.id buses w
    let n ← number w.size source.length
    let samples ← taps source w.size
    let total ← sum samples
    let mean ← binary .div total n
    let squares ← sumSquaredDistances mean samples
    binary .div squares n
  | .incrementalVariance w _ _ => do
    let source ← sourceBus f.id buses w
    let n ← number w.size source.length
    let old ← ago source w.size
    let change ← binary .sub source old
    let total ← place (.accumulator change)
    let totalSquared ← binary .mul total total
    let meanShare ← binary .div totalSquared n
    let newSquared ← binary .mul source source
    let oldSquared ← binary .mul old old
    let changeSquares ← binary .sub newSquared oldSquared
    let totalSquares ← place (.accumulator changeSquares)
    let deviation ← binary .sub totalSquares meanShare
    binary .div deviation n

end Feature
end StreamStats
