import StreamStats.Pass
import StreamStats.Text.Quoted

/-! Sequences of passes. Routine passes are started in order; when one fails to start, those started
before it are finished again, the last one first. All of them are finished in the end, and the first
failure to finish is reported once they all have been. -/

namespace StreamStats

/-- A list of quoted names and a flag, under a title. -/
def summary (title : String) (names : List String) (checksEach : Bool) : String :=
  title ++ " \x7b passes: [" ++ ", ".intercalate (names.map Text.quoted) ++ "], verify_each: " ++
    toString checksEach ++ " \x7d"

structure RoutineSchedule (σ α : Type) where
  passes : List (RoutinePass σ α)
  /-- Check the routine after every pass that changed it. -/
  checksEach : Bool

namespace RoutineSchedule

variable {σ α : Type}

def names (s : RoutineSchedule σ α) : List String := s.passes.map RoutinePass.name

def describe (s : RoutineSchedule σ α) : String :=
  summary "FunctionPassManager" s.names s.checksEach

/-- Finish passes in the order given; of several failures the first is kept. -/
def finishAll : List (RoutinePass σ α) → Attempt σ Unit
  | [] => return
  | pass :: rest => do
    let first ← pass.finish.outcome
    let others ← (finishAll rest).outcome
    Attempt.ofExcept first
    Attempt.ofExcept others

/-- Start passes in order; `started` are those started before, the last one first. -/
def startAll (p : Program α) (started : List (RoutinePass σ α)) :
    List (RoutinePass σ α) → Attempt σ Unit
  | [] => return
  | pass :: rest => do
    match ← (pass.start p).outcome with
    | .ok _ => startAll p (pass :: started) rest
    | .error e =>
      let _ ← (finishAll started).outcome
      throw e

def runAll (checksEach : Bool) (context : Context α) :
    List (RoutinePass σ α) → Attempt (Routine α × σ) Bool
  | [] => return false
  | pass :: rest => do
    let changed ← pass.run context
    if changed && checksEach then
      Attempt.ofExcept ((← get).1.checked context)
    return (← runAll checksEach context rest) || changed

def start (s : RoutineSchedule σ α) (p : Program α) : Attempt σ Unit := startAll p [] s.passes

def run (s : RoutineSchedule σ α) (context : Context α) : Attempt (Routine α × σ) Bool :=
  runAll s.checksEach context s.passes

def finish (s : RoutineSchedule σ α) : Attempt σ Unit := finishAll s.passes

def runAt (s : RoutineSchedule σ α) (context : Context α) (index : Nat) :
    Attempt (Program α × σ) Bool := do
  match (← get).1.routines[index]? with
  | none => return false
  | some r =>
    let (result, r) ← ((s.run context).within r).onSnd
    modify fun (p, world) => (p.setRoutine index r, world)
    Attempt.ofExcept result

/-- Run on the routines at these indices, in order. -/
def runOn (s : RoutineSchedule σ α) (context : Context α) :
    List Nat → Attempt (Program α × σ) Bool
  | [] => return false
  | index :: rest => do
    let changed ← s.runAt context index
    return (← runOn s context rest) || changed

def runOnProgram (s : RoutineSchedule σ α) : Attempt (Program α × σ) Bool := do
  let p := (← get).1
  s.runOn p.context (List.range p.routines.length)

/-- A whole round as a program pass: start, run on every routine, finish. The error of the run comes
before that of the end. -/
def asProgramPass (s : RoutineSchedule σ α) : ProgramPass σ α where
  name := "function-passes"
  run := do
    (s.start (← get).1).onSnd
    let changed ← s.runOnProgram.outcome
    let finished ← s.finish.onSnd.outcome
    let changed ← Attempt.ofExcept changed
    Attempt.ofExcept finished
    return changed

end RoutineSchedule

structure ProgramSchedule (σ α : Type) where
  passes : List (ProgramPass σ α)
  /-- Check the program after every pass that changed it. -/
  checksEach : Bool

namespace ProgramSchedule

variable {σ α : Type}

def names (s : ProgramSchedule σ α) : List String := s.passes.map ProgramPass.name

def describe (s : ProgramSchedule σ α) : String :=
  summary "ModulePassManager" s.names s.checksEach

def runAll (checksEach : Bool) : List (ProgramPass σ α) → Attempt (Program α × σ) Bool
  | [] => return false
  | pass :: rest => do
    let changed ← pass.run
    if changed && checksEach then
      Attempt.ofExcept (← get).1.checked
    return (← runAll checksEach rest) || changed

def run (s : ProgramSchedule σ α) : Attempt (Program α × σ) Bool := runAll s.checksEach s.passes

end ProgramSchedule
end StreamStats
