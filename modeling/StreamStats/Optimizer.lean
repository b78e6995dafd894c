import StreamStats.Plan

/-! Optimizers hold a program and the two schedules planned for it. The routine passes are started
when the optimizer is made and finished once, when it is closed, whatever happened in between. -/

namespace StreamStats

structure Optimizer (σ α : Type) where
  program : Program α
  routinePasses : RoutineSchedule σ α
  programPasses : ProgramSchedule σ α
  target : Option String
  isClosed : Bool

namespace Optimizer

variable {σ α : Type}

def ofSchedules (p : Program α) (routinePasses : RoutineSchedule σ α)
    (programPasses : ProgramSchedule σ α) (target : Option String) : Attempt σ (Optimizer σ α) := do
  routinePasses.start p
  return ⟨p, routinePasses, programPasses, target, false⟩

def configure [Scalar α] (p : Program α) (tuning : Option (Tuning σ α))
    (settings : OptimizerSettings) :
    Attempt σ (Optimizer σ α) := do
  Attempt.ofExcept settings.validate
  let plan := Plan.ofSettings settings
  let plan := match tuning with
    | some t => t.adjust plan
    | none => plan
  ofSchedules p plan.routineSchedule plan.programSchedule (tuning.map Tuning.name)

def onProgram {β : Type} (x : Optimizer σ α → Attempt (Program α × σ) β) :
    Attempt (Optimizer σ α × σ) β := do
  let (o, _) ← get
  (x o).on (fun (o, world) => (o.program, world)) fun (program, world) (o, _) =>
    ({ o with program }, world)

def optimizeRoutine (name : String) : Attempt (Optimizer σ α × σ) Bool :=
  onProgram fun o =>
    match o.program.routineIndex? name with
    | some index => o.routinePasses.runAt o.program.context index
    | none => throw (.unknownRoutine name)

def optimizeProgram : Attempt (Optimizer σ α × σ) Bool := onProgram fun o => o.programPasses.run

/-- Finish the routine passes, unless that has been done. -/
def close : Attempt (Optimizer σ α × σ) Unit := do
  let (o, world) ← get
  if o.isClosed then return
  set ({ o with isClosed := true }, world)
  o.routinePasses.finish.onSnd

def optimize [Scalar α] (p : Program α) (tuning : Option (Tuning σ α))
    (settings : OptimizerSettings) :
    Attempt σ (Program α) := do
  let o ← configure p tuning settings
  let steps : Attempt (Optimizer σ α × σ) Unit := do
    let changed ← optimizeProgram.outcome
    let closed ← close.outcome
    let _ ← Attempt.ofExcept changed
    Attempt.ofExcept closed
  let (result, o) ← steps.within o
  Attempt.ofExcept result
  return o.program

end Optimizer
end StreamStats
