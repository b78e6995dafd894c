import StreamStats.Bus
import StreamStats.Moments
import StreamStats.Text.Quoted

/-! Features: streaming computations of one value list per sample. An input feature passes the
sample on; the others take a statistic of the last few values of an earlier feature, either afresh
over the window or from sums kept up to date. Values before the start of the stream count as
zeros. -/

namespace StreamStats
namespace Feature

inductive Statistic where
  | mean
  | incrementalMean
  | variance
  | incrementalVariance
  deriving DecidableEq

inductive Kind where
  | input
  | windowed (statistic : Statistic)
  deriving DecidableEq

namespace Kind

def all : List Kind :=
  [.input, .windowed .mean, .windowed .incrementalMean, .windowed .variance,
    .windowed .incrementalVariance]

def tag : Kind → String
  | input => "input"
  | windowed .mean => "mean"
  | windowed .incrementalMean => "incremental_mean"
  | windowed .variance => "variance"
  | windowed .incrementalVariance => "incremental_variance"

def ofTag? (tag : String) : Option Kind := all.find? fun kind => kind.tag == tag

@[simp] theorem ofTag?_tag (kind : Kind) : ofTag? kind.tag = some kind := by
  rcases kind with _ | (_ | _ | _ | _) <;> rfl

def fieldCount : Kind → Nat
  | input => 3
  | windowed _ => 4

/-- What the number at the end of a description counts. -/
def numberName : Kind → String
  | input => "dimension"
  | windowed _ => "window"

end Kind
end Feature

inductive FeatureError where
  | emptySample (id : String)
  | sampleWidth (id : String) (expected actual : Nat)
  | inputCount (id : String) (actual : Nat)
  | unwiredInput (id : String) (input : Nat)
  | unknownReference (token : String)
  | unknownIndex (index : Nat)
  | missingKind
  | unknownKind (tag : String)
  | fieldCount (kind : Feature.Kind) (actual : Nat)
  | notPositive (kind : Feature.Kind) (token : String)
  | duplicateId (id : String)
  | emptyRegistry
  | history (error : HistoryError)
  | circuit (error : CircuitError)
  deriving DecidableEq

namespace FeatureError

def malformed (name value : String) : String :=
  "Malformed parameter " ++ name ++ ": " ++ Text.quoted value

def message : FeatureError → String
  | emptySample id => s!"Invalid input: {id}: input of size zero"
  | sampleWidth id expected actual =>
    s!"Invalid input: {id}: expected {expected} values, got {actual}"
  | inputCount id actual => s!"Illegal state: {id} expects 1 input, got {actual}"
  | unwiredInput id input => s!"Feature {id} is missing compiled output for input #{input}"
  | unknownReference token => s!"Unresolved feature reference: {token}"
  | unknownIndex index => s!"Unresolved feature reference: #{index}"
  | missingKind => malformed "kind" ""
  | unknownKind tag => s!"Unknown feature kind: {tag}"
  | fieldCount kind actual =>
    malformed "arity"
      (kind.tag ++ " expects " ++ toString kind.fieldCount ++ " fields, got " ++ toString actual)
  | notPositive kind token => malformed kind.numberName token
  | duplicateId id => s!"Duplicate feature id: {id}"
  | emptyRegistry => "Illegal state: empty feature set"
  | history error => error.message
  | circuit error => error.message

end FeatureError

namespace Feature

/-- The last `size` values of the feature with index `source`. -/
structure Window (α : Type) where
  source : Nat
  size : Nat
  history : History α

/-- The first `width` values, zeros standing in for those that are not there. -/
def fit {α : Type} [Scalar α] (width : Nat) (xs : List α) : List α :=
  (xs ++ List.replicate (width - xs.length) 0).take width

@[simp] theorem length_fit {α : Type} [Scalar α] (width : Nat) (xs : List α) :
    (fit width xs).length = width := by
  simp [fit]
  omega

namespace Window

variable {α : Type}

def ofSize (source size : Nat) : Except HistoryError (Window α) := do
  return ⟨source, size, ← History.ofCapacity size⟩

/-- A sample is refused before anything changes. -/
def record (id : String) (w : Window α) (sample : List α) : Except FeatureError (Window α) :=
  if sample = [] then .error (.emptySample id)
  else match w.history.record sample with
    | .ok history => .ok { w with history }
    | .error e => .error (.history e)

/-- The sample that leaves the window with the next one. -/
def departing [Scalar α] (w : Window α) (width : Nat) : List α :=
  fit width ((w.history.back? (w.size - 1)).getD [])

def clear (w : Window α) : Window α := { w with history := w.history.clear }

end Window

/-- A feature's computation with its state. The sums are those over the window, by component. -/
inductive Stage (α : Type) where
  | input (dimension : Nat)
  | mean (window : Window α)
  | incrementalMean (window : Window α) (sum : List α)
  | variance (window : Window α)
  | incrementalVariance (window : Window α) (sum sumSquares : List α)

namespace Stage

variable {α : Type}

def kind : Stage α → Kind
  | input _ => .input
  | mean _ => .windowed .mean
  | incrementalMean _ _ => .windowed .incrementalMean
  | variance _ => .windowed .variance
  | incrementalVariance _ _ _ => .windowed .incrementalVariance

def window? : Stage α → Option (Window α)
  | input _ => none
  | mean w | incrementalMean w _ | variance w | incrementalVariance w _ _ => some w

def ofWindow (w : Window α) : Statistic → Stage α
  | .mean => mean w
  | .incrementalMean => incrementalMean w []
  | .variance => variance w
  | .incrementalVariance => incrementalVariance w [] []

/-- The width of the values, once known. -/
def width? : Stage α → Option Nat
  | input dimension => some dimension
  | mean w | incrementalMean w _ | variance w | incrementalVariance w _ _ => w.history.width

def reset : Stage α → Stage α
  | input dimension => input dimension
  | mean w => mean w.clear
  | incrementalMean w _ => incrementalMean w.clear []
  | variance w => variance w.clear
  | incrementalVariance w _ _ => incrementalVariance w.clear [] []

def feed [Scalar α] (id : String) (sample : List α) :
    Stage α → Except FeatureError (List α × Stage α)
  | input dimension =>
    if sample.length = dimension then .ok (sample, input dimension)
    else .error (.sampleWidth id dimension sample.length)
  | mean w => do
    let w ← w.record id sample
    return ((Moments.ofHistory w.history w.size sample.length).mean, mean w)
  | incrementalMean w sum => do
    let old := w.departing sample.length
    let w ← w.record id sample
    let n : α := Scalar.ofNat w.size
    let sum := List.zipWith (· + ·) (fit sample.length sum) (List.zipWith (· - ·) sample old)
    return (sum.map (· / n), incrementalMean w sum)
  | variance w => do
    let w ← w.record id sample
    return ((Moments.ofHistory w.history w.size sample.length).variance, variance w)
  | incrementalVariance w sum sumSquares => do
    let old := w.departing sample.length
    let w ← w.record id sample
    let n : α := Scalar.ofNat w.size
    let sum := List.zipWith (· + ·) (fit sample.length sum) (List.zipWith (· - ·) sample old)
    let sumSquares := List.zipWith (· + ·) (fit sample.length sumSquares)
      (List.zipWith (fun new old => new * new - old * old) sample old)
    return (List.zipWith (fun s q => (q - s * s / n) / n) sum sumSquares,
      incrementalVariance w sum sumSquares)

end Stage
end Feature

structure Feature (α : Type) where
  id : String
  stage : Feature.Stage α

namespace Feature

variable {α : Type}

def ofInput (id : String) (dimension : Nat) : Feature α := ⟨id, .input dimension⟩

/-- A windowed feature before any sample; its window has to hold one. -/
def ofWindow (id : String) (statistic : Statistic) (source size : Nat) :
    Except FeatureError (Feature α) :=
  match Window.ofSize source size with
  | .ok w => .ok ⟨id, .ofWindow w statistic⟩
  | .error e => .error (.history e)

def kind (f : Feature α) : Kind := f.stage.kind

/-- The index of the feature that this one reads; none for an input, which reads the sample. -/
def source? (f : Feature α) : Option Nat := f.stage.window?.map Window.source

def width? (f : Feature α) : Option Nat := f.stage.width?

def feed [Scalar α] (f : Feature α) : List (List α) → Except FeatureError (List α × Feature α)
  | [sample] => do
    let (value, stage) ← f.stage.feed f.id sample
    return (value, { f with stage })
  | inputs => .error (.inputCount f.id inputs.length)

def reset (f : Feature α) : Feature α := { f with stage := f.stage.reset }

end Feature
end StreamStats
