import Mathlib.Data.List.Nodup
import StreamStats.Optimizer
import StreamStats.Proofs.Recorded

/-! The lives of an optimizer's routine passes, as they record them: every pass is started once,
before it runs, and finished once, after it ran for the last time, whichever steps fail; and an
optimizer that cannot be made finishes what it has started. -/

namespace StreamStats

open Attempt

variable {σ α β : Type}

def Optimizer.recorded (o : Optimizer σ α) : Optimizer (σ × Record) α :=
  ⟨o.program, o.routinePasses.recorded, o.programPasses.aside, o.target, o.isClosed⟩

def Plan.ofTuning (tuning : Option (Tuning σ α)) (settings : OptimizerSettings) : Plan σ α :=
  match tuning with
  | some t => t.adjust (ofSettings settings)
  | none => ofSettings settings

namespace Optimizer

inductive Call where
  | routine (name : String)
  | program

def Call.attempt : Call → Attempt (Optimizer σ α × σ) Bool
  | routine name => optimizeRoutine name
  | program => optimizeProgram

def callAll : List Call → Attempt (Optimizer σ α × σ) (List (Except OptimizerError Bool))
  | [] => return []
  | call :: rest => do
    let answer ← call.attempt.outcome
    return answer :: (← callAll rest)

/-- An optimizer may be closed to learn of failures; it is closed when it goes away in any case. -/
inductive Ending where
  | finish
  | drop

def Ending.attempt : Ending → Attempt (Optimizer σ α × σ) Unit
  | finish => do
    let result ← close.outcome
    let _ ← close.outcome
    Attempt.ofExcept result
  | drop => do
    let _ ← close.outcome

/-- Use an optimizer and let it end: the answers and what became of the end. -/
def useUp (calls : List Call) (ending : Ending) :
    Attempt (Optimizer σ α × σ) (List (Except OptimizerError Bool) ×
      Except OptimizerError Unit) := do
  let answers ← callAll calls
  return (answers, ← ending.attempt.outcome)

/-- The whole life of an optimizer, from its making on. Returns the program, too. -/
def live (made : Attempt σ (Optimizer σ α)) (calls : List Call) (ending : Ending) :
    Attempt σ ((List (Except OptimizerError Bool) × Except OptimizerError Unit) × Program α) := do
  let o ← made
  let (result, o) ← (useUp calls ending).within o
  return (← Attempt.ofExcept result, o.program)

def configureRecorded [Scalar α] (p : Program α) (tuning : Option (Tuning σ α))
    (settings : OptimizerSettings) :
    Attempt (σ × Record) (Optimizer (σ × Record) α) := do
  Attempt.ofExcept settings.validate
  let plan := Plan.ofTuning tuning settings
  ofSchedules p plan.routineSchedule.recorded plan.programSchedule.aside (tuning.map Tuning.name)

abbrev watching (t : Optimizer σ α × σ) (record : Record) : Optimizer (σ × Record) α × σ × Record :=
  (t.1.recorded, t.2, record)

variable {t : Optimizer σ α × σ} {record : Record}

theorem onProgram_shadows {x' : Optimizer (σ × Record) α → Attempt (Program α × σ × Record) β}
    {x : Optimizer σ α → Attempt (Program α × σ) β}
    {Q : Except OptimizerError β → Optimizer σ α × σ → Record → Prop}
    (h : Shadows beside (x' t.1.recorded) (x t.1) (t.1.program, t.2) record fun r u record' =>
      Q r ({ t.1 with program := u.1 }, u.2) record') :
    Shadows watching (onProgram x') (onProgram x) t record Q := by
  obtain ⟨record', hx, hq⟩ := h
  refine ⟨record', ?_, hq⟩
  have hrun : (onProgram x').run (watching t record) =
    (((x' t.1.recorded).run (t.1.program, t.2, record)).1,
      { t.1.recorded with program := ((x' t.1.recorded).run (t.1.program, t.2, record)).2.1 },
      ((x' t.1.recorded).run (t.1.program, t.2, record)).2.2) := rfl
  rw [hrun, hx]
  rfl

theorem call_shadows (call : Call) (t : Optimizer σ α × σ) (record : Record) :
    Shadows watching call.attempt call.attempt t record fun _ t' record' =>
      t'.1.routinePasses = t.1.routinePasses ∧ t'.1.isClosed = t.1.isClosed ∧
        RoutineSchedule.OnlyRuns record record' := by
  cases call with
  | routine name =>
    simp only [Call.attempt, optimizeRoutine]
    refine onProgram_shadows ?_
    cases hi : t.1.program.routineIndex? name with
    | none =>
      have hi' : (t.1.recorded : Optimizer (σ × Record) α).program.routineIndex? name = none := hi
      rw [hi']
      exact ⟨record, rfl, rfl, rfl, .refl record⟩
    | some index =>
      have hi' : (t.1.recorded : Optimizer (σ × Record) α).program.routineIndex? name =
          some index := hi
      rw [hi']
      exact (RoutineSchedule.runAt_shadows t.1.routinePasses _ index _ record).imp fun _ _ _ h =>
        ⟨rfl, rfl, h⟩
  | program =>
    simp only [Call.attempt, optimizeProgram]
    refine onProgram_shadows ?_
    exact (ProgramSchedule.runAll_shadows _ t.1.programPasses.passes _ record).imp fun _ _ _ h =>
      ⟨rfl, rfl, h ▸ .refl record⟩

theorem callAll_shadows (calls : List Call) (t : Optimizer σ α × σ) (record : Record) :
    Shadows watching (callAll calls) (callAll calls) t record fun r t' record' =>
      (∃ answers, r = .ok answers) ∧ t'.1.routinePasses = t.1.routinePasses ∧
      t'.1.isClosed = t.1.isClosed ∧ RoutineSchedule.OnlyRuns record record' := by
  induction calls generalizing t record with
  | nil => exact .pure ⟨⟨[], rfl⟩, rfl, rfl, .refl record⟩
  | cons call rest ih =>
    refine .outcome_bind ((call_shadows call t record).imp fun answer t₁ record₁ ⟨hp, hc, hr⟩ => ?_)
    refine .bind ((ih t₁ record₁).imp fun r t₂ record₂ ⟨⟨answers, ha⟩, hp', hc', hr'⟩ => ?_)
    subst ha
    exact .pure ⟨⟨_, rfl⟩, hp'.trans hp, hc'.trans hc, hr.trans hr'⟩

theorem close_shadows_of_closed (h : t.1.isClosed = true) :
    Shadows watching close close t record fun _ t' record' => t' = t ∧ record' = record := by
  have h' : (t.1.recorded : Optimizer (σ × Record) α).isClosed = true := h
  refine .get_bind ?_
  simp only [h, h', if_true]
  exact .pure ⟨rfl, rfl⟩

theorem close_shadows_of_open (h : t.1.isClosed = false) :
    Shadows watching close close t record fun _ t' record' => t'.1.isClosed = true ∧
      record' = record ++ RoutineSchedule.each .finished t.1.routinePasses.passes.zipIdx := by
  have h' : (t.1.recorded : Optimizer (σ × Record) α).isClosed = false := h
  have hfinish := RoutineSchedule.finishAll_shadows t.1.routinePasses.passes.zipIdx t.2 record
  rw [List.zipIdx_map_fst] at hfinish
  refine .get_bind ?_
  simp only [h, h', Bool.false_eq_true, if_false]
  refine .set_bind (u := ({ t.1 with isClosed := true }, t.2)) ?_
  exact .onSnd recorded (hfinish.imp fun _ _ _ hrecord => ⟨rfl, hrecord⟩)

/-- However it ends, an open optimizer finishes every routine pass once. -/
theorem ending_shadows (ending : Ending) (h : t.1.isClosed = false) :
    Shadows watching ending.attempt ending.attempt t record fun _ _ record' =>
      record' = record ++ RoutineSchedule.each .finished t.1.routinePasses.passes.zipIdx := by
  cases ending with
  | finish =>
    refine .outcome_bind ((close_shadows_of_open h).imp fun r t₁ record₁ h₁ => ?_)
    refine .outcome_bind ((close_shadows_of_closed h₁.1).imp fun _ t₂ record₂ h₂ => .ofExcept ?_)
    exact h₂.2.trans h₁.2
  | drop => exact .outcome_bind ((close_shadows_of_open h).imp fun _ _ _ h₁ => .pure h₁.2)

theorem useUp_shadows (calls : List Call) (ending : Ending) (record : Record)
    (h : t.1.isClosed = false) :
    Shadows watching (useUp calls ending) (useUp calls ending) t record fun _ _ record' =>
      ∃ ran : List Nat, record' = record ++ ran.map (fun i => (i, .ran)) ++
        RoutineSchedule.each .finished t.1.routinePasses.passes.zipIdx := by
  refine .bind ((callAll_shadows calls t record).imp
    fun r t₁ record₁ ⟨⟨answers, ha⟩, hp, hc, ran, hran⟩ => ?_)
  subst ha hran
  rw [← hp]
  exact .outcome_bind ((ending_shadows ending (hc.trans h)).imp fun _ _ _ h₂ => .pure ⟨ran, h₂⟩)

theorem ofSchedules_run (p : Program α) (s : RoutineSchedule σ α)
    (programPasses : ProgramSchedule σ α) (target : Option String) (world : σ) :
    (ofSchedules p s programPasses target).run world =
      (((s.start p).run world).1.map fun _ => ⟨p, s, programPasses, target, false⟩,
        ((s.start p).run world).2) := by
  unfold ofSchedules
  rw [ExceptT.run_bind_state]
  cases ((s.start p).run world).1 <;> rfl

section Live

variable [Scalar α]

theorem configure_run (p : Program α) (tuning : Option (Tuning σ α)) (settings : OptimizerSettings)
    (world : σ) :
    (configure p tuning settings).run world =
      match settings.validate with
      | .ok _ => (ofSchedules p (Plan.ofTuning tuning settings).routineSchedule
          (Plan.ofTuning tuning settings).programSchedule (tuning.map Tuning.name)).run world
      | .error e => (.error e, world) := by
  unfold configure
  cases settings.validate <;> rfl

theorem configureRecorded_run (p : Program α) (tuning : Option (Tuning σ α))
    (settings : OptimizerSettings) (world : σ) (record : Record) :
    (configureRecorded p tuning settings).run (world, record) =
      match settings.validate with
      | .ok _ => (ofSchedules p (Plan.ofTuning tuning settings).routineSchedule.recorded
          (Plan.ofTuning tuning settings).programSchedule.aside (tuning.map Tuning.name)).run
          (world, record)
      | .error e => (.error e, world, record) := by
  unfold configureRecorded
  cases settings.validate <;> rfl

/-- What is recorded while an optimizer is made: all passes started, or those that were finished
again. -/
theorem configureRecorded_eq (p : Program α) (tuning : Option (Tuning σ α))
    (settings : OptimizerSettings) (world : σ) : ∃ record : Record,
      (configureRecorded p tuning settings).run (world, []) =
        (((configure p tuning settings).run world).1.map recorded,
          ((configure p tuning settings).run world).2, record) ∧
      match ((configure p tuning settings).run world).1 with
      | .ok o =>
        o.routinePasses = (Plan.ofTuning tuning settings).routineSchedule ∧ o.isClosed = false ∧
          record = RoutineSchedule.each (.started true) o.routinePasses.passes.zipIdx
      | .error _ => record = [] ∨ ∃ front refused back,
          (Plan.ofTuning tuning settings).routineSchedule.passes.zipIdx = front ++ refused :: back ∧
            record = RoutineSchedule.each (.started true) front ++
              RoutineSchedule.each (.started false) [refused] ++
                RoutineSchedule.each .finished front.reverse := by
  rw [configure_run, configureRecorded_run]
  cases settings.validate with
  | error e => exact ⟨[], rfl, Or.inl rfl⟩
  | ok _ =>
    let s : RoutineSchedule σ α := (Plan.ofTuning tuning settings).routineSchedule
    have hstart := RoutineSchedule.startAll_shadows p s.passes.zipIdx [] world []
    rw [List.zipIdx_map_fst] at hstart
    obtain ⟨record, hrun, hrecord⟩ := hstart
    have hrun : (s.recorded.start p).run (world, []) =
        (((s.start p).run world).1, ((s.start p).run world).2, record) := hrun
    refine ⟨record, ?_, ?_⟩
    · simp only [ofSchedules_run]
      rw [hrun]
      cases ((s.start p).run world).1 <;> rfl
    · have hrecord : match ((s.start p).run world).1 with
          | .ok _ => record = [] ++ RoutineSchedule.each (.started true) s.passes.zipIdx
          | .error _ => ∃ front refused back, s.passes.zipIdx = front ++ refused :: back ∧
              record = [] ++ RoutineSchedule.each (.started true) front ++
                RoutineSchedule.each (.started false) [refused] ++ RoutineSchedule.each .finished
                  (front.reverse ++ []) :=
        hrecord
      simp only [ofSchedules_run]
      cases h : ((s.start p).run world).1 with
      | ok _ =>
        rw [h] at hrecord
        exact ⟨rfl, rfl, by simpa using hrecord⟩
      | error e =>
        rw [h] at hrecord
        exact Or.inr (by simpa using hrecord)

omit [Scalar α] in
theorem live_run (made : Attempt σ (Optimizer σ α)) (calls : List Call) (ending : Ending) (s : σ) :
    (live made calls ending).run s =
      match (made.run s).1 with
      | .ok o => (((useUp calls ending).run (o, (made.run s).2)).1.map
            fun result => (result, ((useUp calls ending).run (o, (made.run s).2)).2.1.program),
          ((useUp calls ending).run (o, (made.run s).2)).2.2)
      | .error e => (.error e, (made.run s).2) := by
  unfold live
  rw [ExceptT.run_bind_state]
  cases (made.run s).1 with
  | error e => rfl
  | ok o =>
    simp only
    rw [ExceptT.run_bind_state]
    have hwithin : ((useUp calls ending).within o).run (made.run s).2 =
        (.ok (((useUp calls ending).run (o, (made.run s).2)).1,
          ((useUp calls ending).run (o, (made.run s).2)).2.1),
          ((useUp calls ending).run (o, (made.run s).2)).2.2) := rfl
    rw [hwithin]
    cases ((useUp calls ending).run (o, (made.run s).2)).1 <;> rfl

omit [Scalar α] in
/-- What becomes of passes if one of them cannot start. -/
theorem history_of_refused {passes : List (RoutinePass σ α)}
    {front back : List (RoutinePass σ α × Nat)} {refused : RoutinePass σ α × Nat}
    (hzip : passes.zipIdx = front ++ refused :: back) (i : Nat) :
    let record := RoutineSchedule.each (.started true) front ++
      RoutineSchedule.each (.started false) [refused] ++
        RoutineSchedule.each .finished front.reverse
    record.history i = [] ∨ record.history i = [.started false] ∨
    record.history i = [.started true, .finished] := by
  have hnodup : ((front ++ refused :: back).map Prod.snd).Nodup := by
    rw [← hzip, List.zipIdx_map_snd]
    exact List.nodup_range'
  have hle := List.nodup_iff_count_le_one.mp hnodup i
  simp only [List.map_append, List.map_cons, List.count_append, List.count_cons, beq_iff_eq] at hle
  have hhistory : Record.history (RoutineSchedule.each (.started true) front ++
      RoutineSchedule.each (.started false) [refused] ++
        RoutineSchedule.each .finished front.reverse) i =
      List.replicate ((front.map Prod.snd).count i) (.started true) ++
        List.replicate (if refused.2 = i then 1 else 0) (.started false) ++
          List.replicate ((front.map Prod.snd).count i) .finished := by
    simp [List.count_cons]
  simp only [hhistory]
  by_cases hi : refused.2 = i
  · have hc : (front.map Prod.snd).count i = 0 := by
      rw [if_pos hi] at hle
      omega
    simp [hi, hc]
  · have hc : (front.map Prod.snd).count i = 0 ∨ (front.map Prod.snd).count i = 1 := by omega
    rcases hc with hc | hc <;> simp [hi, hc]

/-- The routine passes of an optimizer are started and finished once each. If the optimizer cannot
be made, those that were started are finished and no others; if it can, every pass is started before
it runs and finished after its last run. Which steps fail on the way makes no difference, nor does
the record to what the optimizer does. -/
theorem passes_finished_once (p : Program α) (tuning : Option (Tuning σ α))
    (settings : OptimizerSettings) (calls : List Call) (ending : Ending) (world : σ) :
    ∃ record : Record,
      (live (configureRecorded p tuning settings) calls ending).run (world, []) =
        (((live (configure p tuning settings) calls ending).run world).1,
          ((live (configure p tuning settings) calls ending).run world).2, record) ∧
      match ((configure p tuning settings).run world).1 with
      | .ok _ => ∀ i < (Plan.ofTuning tuning settings).routineSchedule.passes.length,
          ∃ runs, record.history i = .started true :: (List.replicate runs .ran ++ [.finished])
      | .error _ => ∀ i, record.history i = [] ∨ record.history i = [.started false] ∨
          record.history i = [.started true, .finished] := by
  obtain ⟨record, hmade, hrecord⟩ := configureRecorded_eq p tuning settings world
  simp only [live_run, hmade]
  cases hr : ((configure p tuning settings).run world).1 with
  | ok o =>
    rw [hr] at hrecord
    obtain ⟨hpasses, hopen, hstarted⟩ := hrecord
    obtain ⟨record', hrun, ran, hused⟩ :=
      useUp_shadows (t := (o, ((configure p tuning settings).run world).2)) calls ending record
      hopen
    refine ⟨record', ?_, fun i hi => ⟨ran.count i, ?_⟩⟩
    · simp only [Except.map, watching] at hrun ⊢
      rw [hrun]
      rfl
    · have hlt : i < o.routinePasses.passes.length := hpasses ▸ hi
      rw [hused, hstarted]
      simp [hlt]
  | error e =>
    rw [hr] at hrecord
    refine ⟨record, rfl, fun i => ?_⟩
    rcases hrecord with rfl | ⟨front, refused, back, hzip, rfl⟩
    · exact Or.inl rfl
    · exact history_of_refused hzip i

end Live

/-- A pass that fails to start, to run or to be finished, as it is told. -/
def failing (starts runs finishes : Bool) : RoutinePass Unit Float where
  name := "failing"
  start _ := if starts then return else throw (.passFailed "failing" "cannot start")
  run _ := if runs then return false else throw (.passFailed "failing" "cannot run")
  finish := if finishes then return else throw (.notFinished "failing" "cannot finish")

def extras (first second : RoutinePass Unit Float) : Tuning Unit Float :=
  ⟨"extras", fun plan => (plan.addRoutineExtra fun _ => first).addRoutineExtra fun _ => second⟩

/-- Nothing but a check runs behind a pass that cannot run; where a pass cannot start, there is
nothing to run. -/
theorem passes_finished_once_failing :
    (∃ record : Record,
      ((live (configureRecorded ⟨"idle", #[], [.ofBody "wait" .external []]⟩
        (some (extras (failing true false false) (failing true true true))) .debugging)
        [.routine "wait", .routine "go", .program] .finish).run ((), [])).2 = ((), record) ∧
      ∀ i < 3, ∃ runs, record.history i =
        .started true :: (List.replicate runs .ran ++ [.finished])) ∧
    ∃ record : Record,
      ((live (configureRecorded ⟨"idle", #[], [.ofBody "wait" .external []]⟩
        (some (extras (failing true true false) (failing false true true))) .debugging) [.program]
          .drop).run ((), [])).2 = ((), record) ∧
      ∀ i, record.history i = [] ∨ record.history i = [.started false] ∨
        record.history i = [.started true, .finished] := by
  constructor
  · obtain ⟨record, hrun, hhistory⟩ :=
      passes_finished_once ⟨"idle", #[], [.ofBody "wait" .external []]⟩
      (some (extras (failing true false false) (failing true true true))) .debugging
      [.routine "wait", .routine "go", .program] .finish ()
    exact ⟨record, by rw [hrun], hhistory⟩
  · obtain ⟨record, hrun, hhistory⟩ :=
      passes_finished_once ⟨"idle", #[], [.ofBody "wait" .external []]⟩
      (some (extras (failing true true false) (failing false true true))) .debugging [.program]
      .drop ()
    exact ⟨record, by rw [hrun], hhistory⟩

/-- The passes before one that cannot start are finished again, the last one first. -/
example :
    ((configureRecorded ⟨"idle", #[], []⟩
      (some (extras (failing true true false) (failing false true true)))
    .debugging).run ((), [])).2.2 =
    [(0, .started true), (1, .started true), (2, .started false), (1, .finished), (0, .finished)] :=
  rfl

end Optimizer
end StreamStats
