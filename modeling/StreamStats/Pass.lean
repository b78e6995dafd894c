import StreamStats.Check
import StreamStats.Transform.Constants
import StreamStats.Transform.DeadStores
import StreamStats.Transform.Inline
import StreamStats.Transform.Pack
import StreamStats.Transform.Reachable
import StreamStats.Transform.Widen

/-! Passes. A routine pass is started once for a program, run on routines, and finished; a program
pass is run on programs. Each step may fail, and may change a world that passes share, which is how
passes keep state; the world, the routine and the program keep what was changed before a failure. -/

namespace StreamStats

inductive OptimizerError where
  | rejected (rejection : Rejection)
  | passFailed (pass message : String)
  | unknownRoutine (name : String)
  | notFinished (pass message : String)
  | optLevel (level : Nat)
  | sizeLevel (level : Nat)
  | zeroVectorWidth
  deriving DecidableEq

def maxOptLevel : Nat := 3

def maxSizeLevel : Nat := 2

namespace OptimizerError

def invalid (what : String) : String := "Invalid optimizer configuration: " ++ what

def message : OptimizerError → String
  | rejected rejection => rejection.message
  | passFailed pass message => s!"Pass {pass} failed: {message}"
  | unknownRoutine name => s!"Unknown function: {name}"
  | notFinished pass message => s!"Finalization of {pass} failed: {message}"
  | optLevel level => invalid s!"opt_level {level} exceeds {maxOptLevel}"
  | sizeLevel level => invalid s!"size_level {level} exceeds {maxSizeLevel}"
  | zeroVectorWidth => invalid "vector_width must be positive"

end OptimizerError

/-- A step that may fail and keeps the state as the failure left it. -/
abbrev Attempt (σ β : Type) := ExceptT OptimizerError (StateM σ) β

namespace Attempt

variable {σ τ β : Type}

def ofExcept : Except OptimizerError β → Attempt σ β
  | .ok b => return b
  | .error e => throw e

/-- What became of a step; this itself does not fail. -/
def outcome (x : Attempt σ β) : Attempt σ (Except OptimizerError β) := ExceptT.lift x.run

def on (get : τ → σ) (put : σ → τ → τ) (x : Attempt σ β) : Attempt τ β := fun t =>
  let (result, s) := x.run (get t)
  (result, put s t)

/-- Run a step with a further part of the state, and return what became of both. -/
def within (t : τ) (x : Attempt (τ × σ) β) : Attempt σ (Except OptimizerError β × τ) := fun s =>
  let (result, t, s) := x.run (t, s)
  (.ok (result, t), s)

def onFst (x : Attempt σ β) : Attempt (σ × τ) β := x.on Prod.fst fun s t => (s, t.2)

def onSnd (x : Attempt σ β) : Attempt (τ × σ) β := x.on Prod.snd fun s t => (t.1, s)

end Attempt

structure RoutinePass (σ α : Type) where
  name : String
  start : Program α → Attempt σ Unit
  /-- Returns whether the routine changed. -/
  run : Context α → Attempt (Routine α × σ) Bool
  finish : Attempt σ Unit

structure ProgramPass (σ α : Type) where
  name : String
  /-- Returns whether the program changed. -/
  run : Attempt (Program α × σ) Bool

def Routine.checked {α : Type} (r : Routine α) (context : Context α) : Except OptimizerError Unit :=
  (r.check context).mapError .rejected

def Program.checked {α : Type} (p : Program α) : Except OptimizerError Unit :=
  p.check.mapError .rejected

namespace RoutinePass

variable {σ α : Type}

def ofTransform (name : String) (transform : Context α → Routine α → Routine α × Bool) :
    RoutinePass σ α where
  name
  start _ := return
  run context := do
    let (r, s) ← get
    let (r, changed) := transform context r
    set (r, s)
    return changed
  finish := return

def check : RoutinePass σ α where
  name := "verify"
  start _ := return
  run context := do
    Attempt.ofExcept ((← get).1.checked context)
    return false
  finish := return

def sweep : RoutinePass σ α :=
  ofTransform "dce" fun _ r => (r.sweep, r.sweepReports)

variable [Scalar α]

def foldConstants : RoutinePass σ α :=
  ofTransform "const-fold" fun context r =>
    (r.foldConstants context.segments, r.foldReports context.segments)

omit [Scalar α] in
def widenLoops (width : Nat) : RoutinePass σ α :=
  ofTransform "loop-vectorize" fun _ r =>
    let (next, count) := r.widenLoops width
    (next, count != 0)

def packChunks (width : Nat) : RoutinePass σ α :=
  ofTransform "slp-vectorize" fun _ r =>
    let (next, count) := r.packChunks width
    (next, count != 0)

end RoutinePass

namespace ProgramPass

variable {σ α : Type}

def ofTransform (name : String) (transform : Program α → Program α × Bool) : ProgramPass σ α where
  name
  run := do
    let (p, s) ← get
    let (p, changed) := transform p
    set (p, s)
    return changed

def check : ProgramPass σ α where
  name := "verify"
  run := do
    Attempt.ofExcept (← get).1.checked
    return false

def inlineCalls (limit : Option Nat) : ProgramPass σ α :=
  ofTransform "inline" (·.inlineCalls limit)

def dropUnreachable : ProgramPass σ α :=
  ofTransform "global-dce" fun p =>
    let next := p.dropUnreachable
    (next, next.routines.length != p.routines.length)

def dropDeadStores : ProgramPass σ α :=
  ofTransform "dead-store" fun p =>
    let next := p.dropDeadStores
    (next, next.size != p.size)

end ProgramPass
end StreamStats
