import StreamStats.Proofs.Attempts
import StreamStats.Schedule

/-! Passes that record what happens to them, next to the world that they share. Apart from the
record, schedules of such passes do what those of the passes themselves do, failures included; and
the record tells how often and in which order passes were started, run and finished. -/

namespace StreamStats

variable {σ α β : Type}

inductive PassEvent where
  | started (succeeded : Bool)
  | ran
  | finished
  deriving DecidableEq

abbrev Record := List (Nat × PassEvent)

namespace Record

/-- What happened to the pass at a position. -/
def history (record : Record) (i : Nat) : List PassEvent :=
  record.filterMap fun entry => if entry.1 = i then some entry.2 else none

@[simp] theorem history_append (record record' : Record) (i : Nat) :
    history (record ++ record') i = record.history i ++ record'.history i := List.filterMap_append

@[simp] theorem history_map {ι : Type} (items : List ι) (position : ι → Nat) (event : PassEvent)
    (i : Nat) :
    history (items.map fun item => (position item, event)) i =
      List.replicate ((items.map position).count i) event := by
  induction items with
  | nil => rfl
  | cons item items ih =>
    unfold history at ih ⊢
    by_cases h : position item = i
    · simp [h, ih, List.replicate_succ]
    · simp [h, ih]

end Record

namespace Attempt

def aside {ρ : Type} (x : Attempt (ρ × σ) β) : Attempt (ρ × σ × Record) β :=
  x.on (fun t => (t.1, t.2.1)) fun u t => (u.1, u.2, t.2.2)

def note (i : Nat) (event : PassEvent) : Attempt (σ × Record) Unit :=
  modify fun t => (t.1, t.2 ++ [(i, event)])

end Attempt

open Attempt

def RoutinePass.recorded (pass : RoutinePass σ α) (i : Nat) : RoutinePass (σ × Record) α where
  name := pass.name
  start p := do
    let result ← (pass.start p).onFst.outcome
    note i (.started result.isOk)
    Attempt.ofExcept result
  run context := do
    (note i .ran).onSnd
    (pass.run context).aside
  finish := do
    note i .finished
    pass.finish.onFst

def RoutinePass.recordAll (passes : List (RoutinePass σ α × Nat)) :
    List (RoutinePass (σ × Record) α) := passes.map fun pass => pass.1.recorded pass.2

def RoutineSchedule.recorded (s : RoutineSchedule σ α) : RoutineSchedule (σ × Record) α :=
  ⟨RoutinePass.recordAll s.passes.zipIdx, s.checksEach⟩

def ProgramPass.aside (pass : ProgramPass σ α) : ProgramPass (σ × Record) α :=
  ⟨pass.name, pass.run.aside⟩

def ProgramSchedule.aside (s : ProgramSchedule σ α) : ProgramSchedule (σ × Record) α :=
  ⟨s.passes.map ProgramPass.aside, s.checksEach⟩

section Shadows

variable {τ τ' γ ρ ω : Type} {attach : τ → ω → τ'} {x' : Attempt τ' β} {x : Attempt τ β} {t : τ}
    {record : ω} {Q : Except OptimizerError β → τ → ω → Prop}

/-- A step with a record beside its state does what a step without does, and leaves such a
record. -/
def Shadows (attach : τ → ω → τ') (x' : Attempt τ' β) (x : Attempt τ β) (t : τ) (record : ω)
    (Q : Except OptimizerError β → τ → ω → Prop) : Prop :=
  ∃ record', x'.run (attach t record) = ((x.run t).1, attach (x.run t).2 record') ∧
  Q (x.run t).1 (x.run t).2 record'

namespace Shadows

theorem imp {Q' : Except OptimizerError β → τ → ω → Prop} (h : Shadows attach x' x t record Q)
    (hQ : ∀ r t record, Q r t record → Q' r t record) : Shadows attach x' x t record Q' := by
  obtain ⟨record', hx, hq⟩ := h
  exact ⟨record', hx, hQ _ _ _ hq⟩

theorem pure {b : β} (h : Q (.ok b) t record) : Shadows attach (return b) (return b) t record Q :=
  ⟨record, rfl, h⟩

theorem ofExcept {r : Except OptimizerError β} (h : Q r t record) :
    Shadows attach (Attempt.ofExcept r) (Attempt.ofExcept r) t record Q := by
  cases r <;> exact ⟨record, rfl, h⟩

theorem bind {f' : β → Attempt τ' γ} {f : β → Attempt τ γ}
    {Q : Except OptimizerError γ → τ → ω → Prop} (h : Shadows attach x' x t record fun r t record =>
      match r with
      | .ok b => Shadows attach (f' b) (f b) t record Q
      | .error e => Q (.error e) t record) : Shadows attach (x' >>= f') (x >>= f) t record Q := by
  obtain ⟨record', hx, hq⟩ := h
  unfold Shadows
  rw [ExceptT.run_bind_state x, ExceptT.run_bind_state x', hx]
  cases hr : (x.run t).1 with
  | ok b =>
    rw [hr] at hq
    exact hq
  | error e =>
    rw [hr] at hq
    exact ⟨record', rfl, hq⟩

theorem outcome_bind {f' : Except OptimizerError β → Attempt τ' γ}
    {f : Except OptimizerError β → Attempt τ γ} {Q : Except OptimizerError γ → τ → ω → Prop}
    (h : Shadows attach x' x t record fun r t record => Shadows attach (f' r) (f r) t record Q) :
    Shadows attach (x'.outcome >>= f') (x.outcome >>= f) t record Q := by
  obtain ⟨record', hx, hq⟩ := h
  refine bind ⟨record', ?_, hq⟩
  show (Except.ok (x'.run (attach t record)).1, (x'.run (attach t record)).2) = _
  rw [hx]
  rfl

theorem get_bind {f' : τ' → Attempt τ' γ} {f : τ → Attempt τ γ}
    {Q : Except OptimizerError γ → τ → ω → Prop}
    (h : Shadows attach (f' (attach t record)) (f t) t record Q) :
    Shadows attach (get >>= f') (get >>= f) t record Q := h

theorem set_bind {f' : PUnit → Attempt τ' γ} {f : PUnit → Attempt τ γ} {u : τ}
    {Q : Except OptimizerError γ → τ → ω → Prop} (h : Shadows attach (f' ⟨⟩) (f ⟨⟩) u record Q) :
    Shadows attach (set (attach u record) >>= f') (set u >>= f) t record Q := h

theorem modify {g' : τ' → τ'} {g : τ → τ} {Q : Except OptimizerError PUnit → τ → ω → Prop}
    (hg : g' (attach t record) = attach (g t) record) (h : Q (.ok ⟨⟩) (g t) record) :
    Shadows attach (modify g') (modify g) t record Q :=
  ⟨record, congrArg (Except.ok PUnit.unit, ·) hg, h⟩

end Shadows

abbrev beside (t : ρ × σ) (record : ω) : ρ × σ × ω := (t.1, t.2, record)

namespace Shadows

theorem onSnd {ρ' : Type} (f : ρ → ρ') {x' : Attempt (σ × ω) β} {x : Attempt σ β} {t : ρ × σ}
    {Q : Except OptimizerError β → ρ × σ → ω → Prop}
    (h : Shadows Prod.mk x' x t.2 record fun r s record => Q r (t.1, s) record) :
    Shadows (fun t record => (f t.1, t.2, record)) x'.onSnd x.onSnd t record Q := by
  obtain ⟨record', hx, hq⟩ := h
  refine ⟨record', ?_, hq⟩
  show ((x'.run (t.2, record)).1, f t.1, (x'.run (t.2, record)).2) = _
  rw [hx]
  rfl

theorem within {x' : Attempt (ρ × σ × ω) β} {x : Attempt (ρ × σ) β} {r : ρ} {s : σ}
    {Q : Except OptimizerError (Except OptimizerError β × ρ) → σ → ω → Prop}
    (h : Shadows beside x' x (r, s) record fun b t record => Q (.ok (b, t.1)) t.2 record) :
    Shadows Prod.mk (x'.within r) (x.within r) s record Q := by
  obtain ⟨record', hx, hq⟩ := h
  refine ⟨record', ?_, hq⟩
  show (Except.ok ((x'.run (r, s, record)).1, (x'.run (r, s, record)).2.1),
    (x'.run (r, s, record)).2.2) = _
  rw [hx]
  rfl

/-- Steps that do not know of the record leave it alone. -/
theorem aside {x : Attempt (ρ × σ) β} {t : ρ × σ} {record : Record}
    {Q : Except OptimizerError β → ρ × σ → Record → Prop} (h : Q (x.run t).1 (x.run t).2 record) :
    Shadows beside x.aside x t record Q := ⟨record, rfl, h⟩

end Shadows
end Shadows

namespace RoutinePass

theorem start_shadows (pass : RoutinePass σ α) (i : Nat) (p : Program α) (s : σ) (record : Record) :
    Shadows Prod.mk ((pass.recorded i).start p) (pass.start p) s record
      fun r _ record' => record' = record ++ [(i, .started r.isOk)] := by
  refine ⟨_, ?_, rfl⟩
  have hrun : ((pass.recorded i).start p).run (s, record) =
    (Attempt.ofExcept ((pass.start p).run s).1).run
      (((pass.start p).run s).2, record ++ [(i, .started ((pass.start p).run s).1.isOk)]) := rfl
  rw [hrun]
  cases ((pass.start p).run s).1 <;> rfl

theorem finish_shadows (pass : RoutinePass σ α) (i : Nat) (s : σ) (record : Record) :
    Shadows Prod.mk (pass.recorded i).finish pass.finish s record
      fun _ _ record' => record' = record ++ [(i, .finished)] := ⟨_, rfl, rfl⟩

theorem run_shadows (pass : RoutinePass σ α) (i : Nat) (context : Context α) (t : Routine α × σ)
    (record : Record) :
    Shadows beside ((pass.recorded i).run context) (pass.run context) t record
      fun _ _ record' => record' = record ++ [(i, .ran)] := ⟨_, rfl, rfl⟩

end RoutinePass

namespace RoutineSchedule

open RoutinePass

def each (event : PassEvent) (passes : List (RoutinePass σ α × Nat)) : Record :=
  passes.map fun pass => (pass.2, event)

@[simp] theorem history_each (event : PassEvent) (passes : List (RoutinePass σ α × Nat)) (i : Nat) :
    Record.history (each event passes) i = List.replicate ((passes.map Prod.snd).count i) event :=
  Record.history_map passes Prod.snd event i

theorem finishAll_shadows (passes : List (RoutinePass σ α × Nat)) (s : σ) (record : Record) :
    Shadows Prod.mk (finishAll (recordAll passes)) (finishAll (passes.map Prod.fst)) s record
      fun _ _ record' => record' = record ++ each .finished passes := by
  induction passes generalizing s record with
  | nil => exact .pure (by simp [each])
  | cons pass rest ih =>
    refine .outcome_bind ((finish_shadows pass.1 pass.2 s record).imp fun first s record hrecord =>
      ?_)
    refine .outcome_bind ((ih s record).imp fun others s record' hrecord' => ?_)
    refine .bind (.ofExcept ?_)
    cases first with
    | error e => simp [each, hrecord, hrecord']
    | ok _ => exact .ofExcept (by simp [each, hrecord, hrecord'])

/-- Passes are started until one refuses; then those that were started are finished, the last one
first. -/
theorem startAll_shadows (p : Program α) (passes started : List (RoutinePass σ α × Nat)) (s : σ)
    (record : Record) :
    Shadows Prod.mk (startAll p (recordAll started) (recordAll passes))
      (startAll p (started.map Prod.fst) (passes.map Prod.fst)) s record fun r _ record' =>
        match r with
        | .ok _ => record' = record ++ each (.started true) passes
        | .error _ => ∃ front refused back, passes = front ++ refused :: back ∧
            record' = record ++ each (.started true) front ++ each (.started false) [refused] ++
              each .finished (front.reverse ++ started) := by
  induction passes generalizing started s record with
  | nil => exact .pure (by simp [each])
  | cons pass rest ih =>
    refine .outcome_bind ((start_shadows pass.1 pass.2 p s record).imp fun r s record hrecord => ?_)
    subst hrecord
    cases r with
    | ok _ =>
      refine (ih (pass :: started) s _).imp fun r s record' h => ?_
      cases r with
      | ok _ => simpa [each, Except.isOk, Except.toBool] using h
      | error _ =>
        obtain ⟨front, refused, back, rfl, hrecord⟩ := h
        exact ⟨pass :: front, refused, back, rfl,
          by simpa [each, Except.isOk, Except.toBool] using hrecord⟩
    | error e =>
      refine .outcome_bind ((finishAll_shadows started s _).imp fun _ s record' h => ?_)
      exact ⟨record', rfl, [], pass, rest, rfl, by simpa [each, Except.isOk, Except.toBool] using h⟩

def OnlyRuns (record record' : Record) : Prop :=
  ∃ ran : List Nat, record' = record ++ ran.map fun i => (i, .ran)

@[simp] theorem OnlyRuns.refl (record : Record) : OnlyRuns record record := ⟨[], by simp⟩

theorem OnlyRuns.trans {record₁ record₂ record₃ : Record} (h : OnlyRuns record₁ record₂)
    (h' : OnlyRuns record₂ record₃) :
    OnlyRuns record₁ record₃ := by
  obtain ⟨ran, rfl⟩ := h
  obtain ⟨ran', rfl⟩ := h'
  exact ⟨ran ++ ran', by simp⟩

theorem runAll_shadows (checksEach : Bool) (context : Context α)
    (passes : List (RoutinePass σ α × Nat)) (t : Routine α × σ) (record : Record) :
    Shadows beside (runAll checksEach context (recordAll passes)) (runAll checksEach context
      (passes.map Prod.fst)) t record fun _ _ record' => OnlyRuns record record' := by
  induction passes generalizing t record with
  | nil => exact .pure (.refl record)
  | cons pass rest ih =>
    refine .bind ((run_shadows pass.1 pass.2 context t record).imp fun r t record₁ hrecord => ?_)
    have hran : OnlyRuns record record₁ := ⟨[pass.2], hrecord⟩
    cases r with
    | error e => exact hran
    | ok changed =>
      have hrest : Shadows beside
          (do return (← runAll checksEach context (recordAll rest)) || changed)
          (do return (← runAll checksEach context (rest.map Prod.fst)) || changed) t record₁
          fun _ _ record' => OnlyRuns record record' := by
        refine .bind ((ih t record₁).imp fun r t record₂ h => ?_)
        cases r with
        | error e => exact hran.trans h
        | ok _ => exact .pure (hran.trans h)
      by_cases hc : (changed && checksEach) = true
      · simp only [if_pos hc]
        refine .get_bind (.bind (.ofExcept ?_))
        cases t.1.checked context with
        | error e => exact hran
        | ok _ => exact hrest
      · simp only [if_neg hc]
        exact hrest

variable (s : RoutineSchedule σ α)

theorem runAt_shadows (context : Context α) (index : Nat) (t : Program α × σ) (record : Record) :
    Shadows beside (s.recorded.runAt context index) (s.runAt context index) t record
      fun _ _ record' => OnlyRuns record record' := by
  refine .get_bind ?_
  cases hr : t.1.routines[index]? with
  | none => exact .pure (.refl record)
  | some r =>
    have hrun := runAll_shadows s.checksEach context s.passes.zipIdx (r, t.2) record
    rw [List.zipIdx_map_fst] at hrun
    refine .bind (.onSnd id (.within (hrun.imp fun result _ record' h => ?_)))
    refine .bind (.modify rfl (.ofExcept h))

end RoutineSchedule

theorem ProgramSchedule.runAll_shadows (checksEach : Bool) (passes : List (ProgramPass σ α))
    (t : Program α × σ) (record : Record) :
    Shadows beside (runAll checksEach (passes.map ProgramPass.aside))
      (runAll checksEach passes) t record fun _ _ record' => record' = record := by
  induction passes generalizing t with
  | nil => exact .pure rfl
  | cons pass rest ih =>
    refine .bind (.aside ?_)
    cases (pass.run.run t).1 with
    | error e => rfl
    | ok changed =>
      have hrest : ∀ t, Shadows beside
        (do return (← runAll checksEach (rest.map ProgramPass.aside)) || changed)
          (do return (← runAll checksEach rest) || changed) t record fun _ _ record' =>
            record' = record := by
        intro t
        refine .bind ((ih t).imp fun r t record₁ h => ?_)
        cases r with
        | error e => exact h
        | ok _ => exact .pure h
      by_cases hc : (changed && checksEach) = true
      · simp only [if_pos hc]
        refine .get_bind (.bind (.ofExcept ?_))
        cases (pass.run.run t).2.1.checked with
        | error e => rfl
        | ok _ => exact hrest _
      · simp only [if_neg hc]
        exact hrest _

end StreamStats
