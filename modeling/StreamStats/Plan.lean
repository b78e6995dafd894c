import StreamStats.Schedule

/-! Plans decide which passes run. A plan follows from levels and switches, may be tuned for a
target, and fills the schedule for single routines and the one for whole programs. -/

namespace StreamStats

structure OptimizerSettings where
  optLevel : Nat := 2
  sizeLevel : Nat := 0
  widenLoops : Bool := true
  packChunks : Bool := true
  /-- Lanes for targets that do not say. -/
  vectorWidth : Nat := 4
  checksEach : Bool := false
  deriving DecidableEq

namespace OptimizerSettings

def small : OptimizerSettings := { sizeLevel := 2, widenLoops := false }

def debugging : OptimizerSettings :=
  { optLevel := 0, widenLoops := false, packChunks := false, checksEach := true }

def validate (s : OptimizerSettings) : Except OptimizerError Unit :=
  if maxOptLevel < s.optLevel then .error (.optLevel s.optLevel)
  else if maxSizeLevel < s.sizeLevel then .error (.sizeLevel s.sizeLevel)
  else if s.vectorWidth = 0 then .error .zeroVectorWidth
  else .ok ()

end OptimizerSettings

/-- The size up to which routines are inlined unasked; none at level zero. -/
def inlineLimit (optLevel sizeLevel : Nat) : Option Nat :=
  if optLevel = 0 then none
  else if 2 < optLevel then some 250
  else match sizeLevel with
    | 0 => some 225
    | 1 => some 75
    | _ => some 25

inductive Placement where
  | routines
  | programs
  deriving DecidableEq

structure Plan (σ α : Type) where
  optLevel : Nat
  sizeLevel : Nat
  inlineLimit : Option Nat
  widenLoops : Bool
  packChunks : Bool
  vectorWidth : Nat
  checksEach : Bool
  /-- Passes to run after the others; each schedule gets its own. -/
  routineExtras : List (Placement → RoutinePass σ α)
  /-- Passes to run before the last check. -/
  programExtras : List (ProgramPass σ α)

namespace Plan

variable {σ α : Type}

def ofLevels (optLevel sizeLevel : Nat) : Plan σ α where
  optLevel
  sizeLevel
  inlineLimit := StreamStats.inlineLimit optLevel sizeLevel
  widenLoops := false
  packChunks := false
  vectorWidth := 1
  checksEach := false
  routineExtras := []
  programExtras := []

def ofSettings (s : OptimizerSettings) : Plan σ α :=
  { ofLevels s.optLevel s.sizeLevel with
    widenLoops := s.widenLoops
    packChunks := s.packChunks
    vectorWidth := s.vectorWidth
    checksEach := s.checksEach }

def addRoutineExtra (plan : Plan σ α) (pass : Placement → RoutinePass σ α) : Plan σ α :=
  { plan with routineExtras := plan.routineExtras ++ [pass] }

def addProgramExtra (plan : Plan σ α) (pass : ProgramPass σ α) : Plan σ α :=
  { plan with programExtras := plan.programExtras ++ [pass] }

def describe (plan : Plan σ α) : String :=
  let limit := match plan.inlineLimit with
    | some n => s!"Some({n})"
    | none => "None"
  s!"PipelineBuilder \x7b opt_level: {plan.optLevel}, size_level: {plan.sizeLevel}, " ++
    s!"inline_threshold: {limit}, loop_vectorize: {plan.widenLoops}, " ++
    s!"slp_vectorize: {plan.packChunks}, vector_width: {plan.vectorWidth}, " ++
    s!"verify_each: {plan.checksEach}, " ++
    s!"function_extensions: {plan.routineExtras.length}, " ++
    s!"module_extensions: {plan.programExtras.length} \x7d"

variable [Scalar α]

/-- The passes that make a routine simpler: constants first, then wider code, and last what is
dead. -/
def simplification (plan : Plan σ α) (placement : Placement) : List (RoutinePass σ α) :=
  let on := 0 < plan.optLevel
  let wide := on && 1 < plan.vectorWidth
  (if on then [.foldConstants] else []) ++
    (if wide && plan.widenLoops then [.widenLoops plan.vectorWidth] else []) ++
    (if wide && plan.packChunks then [.packChunks plan.vectorWidth] else []) ++
    plan.routineExtras.map (· placement) ++
    (if on then [.sweep] else [])

def routineSchedule (plan : Plan σ α) : RoutineSchedule σ α where
  passes := .check :: plan.simplification .routines
  checksEach := plan.checksEach

def programSchedule (plan : Plan σ α) : ProgramSchedule σ α where
  passes :=
    let simplification := plan.simplification .programs
    [.check, .inlineCalls plan.inlineLimit, .dropUnreachable] ++
      (if simplification.isEmpty then []
        else [RoutineSchedule.asProgramPass ⟨simplification, plan.checksEach⟩]) ++
      (if 0 < plan.optLevel then [.dropDeadStores] else []) ++
      plan.programExtras ++ [.check]
  checksEach := plan.checksEach

end Plan

/-- A machine to make code for, with the lanes it works on at once. -/
structure Target where
  name : String
  vectorWidth : Nat
  deriving DecidableEq

namespace Target

def scalar : Target := ⟨"scalar", 1⟩
def sse2 : Target := ⟨"sse2", 2⟩
def avx2 : Target := ⟨"avx2", 4⟩
def avx512 : Target := ⟨"avx512", 8⟩

/-- Plan for the target's lanes; with fewer than two there is nothing to widen or pack. -/
def adjust {σ α : Type} (t : Target) (plan : Plan σ α) : Plan σ α :=
  let plan := { plan with vectorWidth := t.vectorWidth }
  if t.vectorWidth < 2 then { plan with widenLoops := false, packChunks := false } else plan

end Target

structure Tuning (σ α : Type) where
  name : String
  adjust : Plan σ α → Plan σ α

def Target.tuning {σ α : Type} (t : Target) : Tuning σ α := ⟨t.name, t.adjust⟩

end StreamStats
