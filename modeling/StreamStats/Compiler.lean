import StreamStats.Optimizer
import StreamStats.Machine
import StreamStats.Registry.Description
import StreamStats.Settings

/-! From features to code: the features of a registry are wired into a circuit, code is made for the
value of the last one, and the code is optimized. A session feeds the result one sample at a
time. -/

namespace StreamStats

inductive CompileError where
  | feature (error : FeatureError)
  | codegen (error : CodegenError)
  | optimizer (error : OptimizerError)
  deriving DecidableEq

namespace CompileError

def message : CompileError → String
  | feature error => "Feature error: " ++ error.message
  | codegen error => "Lowering error: " ++ error.message
  | optimizer error => "Optimizer error: " ++ error.message

end CompileError

/-- An optimized program, the routine to call for a sample, and the sizes of samples and values. -/
structure Compiled (α : Type) where
  program : Program α
  entry : String
  inputSize : Nat
  outputSize : Nat

structure Session (α : Type) where
  machine : Machine α
  entry : String

namespace Compiled

variable {α : Type} [Scalar α]

/-- Make code for the value of the last feature of a registry. -/
def ofRegistry (s : Settings) (r : Registry α) : Except CompileError (Compiled α) := do
  let wired ← r.wire.mapError .feature
  let program ← (Codegen.program wired.circuit wired.output s.codegen).mapError .codegen
  let (optimized, _) := (Optimizer.optimize program (s.target.map Target.tuning) s.optimizer).run ()
  let program ← optimized.mapError .optimizer
  return {
    program
    entry := Codegen.entryName program.name
    inputSize := wired.circuit.inputSize?.getD 0
    outputSize := wired.output.length }

def ofDescriptions (s : Settings) (descriptions : List (List String)) :
    Except CompileError (Compiled α) := do
  ofRegistry s (← (Registry.ofDescriptions descriptions).mapError .feature)

def session {α : Type} (c : Compiled α) : Session α := ⟨.ofProgram c.program, c.entry⟩

end Compiled

namespace Session

variable {α : Type}

def predict [Scalar α] (s : Session α) (sample : List α) : Except Fault (List α) × Session α :=
  let (result, machine) := s.machine.run s.entry sample
  (result, { s with machine })

/-- The number of samples taken since the start or the last reset. -/
def samples (s : Session α) : Nat := s.machine.runs

def reset (s : Session α) : Session α := { s with machine := s.machine.reset }

end Session
end StreamStats
