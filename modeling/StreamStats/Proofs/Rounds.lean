import Mathlib.Data.List.Nodup
import StreamStats.Proofs.Recorded

/-! Rounds of routine passes: all are started, run on every routine and finished. A journal tells,
step by step, what became of a round. It balances whatever fails: what has started is finished once,
nothing runs before all have started or after one is finished, and the answer of the round is the
first failure that matters. -/

namespace StreamStats

open Attempt

variable {σ α β : Type}

/-- What a round does with a pass; a check is one of a routine that the pass has changed. -/
inductive RoundStep where
  | start
  | run
  | check
  | finish
  deriving DecidableEq

/-- A step that was taken for the pass at a position, with its failure if it failed. -/
structure RoundEvent where
  pass : Nat
  step : RoundStep
  failure? : Option OptimizerError
  deriving DecidableEq

/-- What happened in rounds, oldest first. -/
abbrev Journal := List RoundEvent

def failureOf? : Except OptimizerError β → Option OptimizerError
  | .ok _ => none
  | .error e => some e

namespace Journal

variable {journal journal' : Journal} {step : RoundStep} {steps others : List RoundStep} {i : Nat}

def passes (journal : Journal) (step : RoundStep) : List Nat :=
  (journal.filter (·.step = step)).map RoundEvent.pass

def failure? (journal : Journal) (steps : List RoundStep) : Option OptimizerError :=
  (journal.filter (·.step ∈ steps)).findSome? RoundEvent.failure?

def starts (count : Nat) : Journal := (List.range count).map fun i => ⟨i, .start, none⟩

def Only (journal : Journal) (steps : List RoundStep) : Prop :=
  ∀ event ∈ journal, event.step ∈ steps

@[simp] theorem passes_append (journal journal' : Journal) (step : RoundStep) :
    passes (journal ++ journal') step = journal.passes step ++ journal'.passes step := by
  simp [passes]

@[simp] theorem failure?_append (journal journal' : Journal) (steps : List RoundStep) :
    failure? (journal ++ journal') steps =
      (journal.failure? steps).or (journal'.failure? steps) := by
  simp [failure?]

@[simp] theorem mem_starts {event : RoundEvent} {count : Nat} :
    event ∈ starts count ↔ event.pass < count ∧ event = ⟨event.pass, .start, none⟩ := by
  simp only [starts, List.mem_map, List.mem_range]
  constructor
  · rintro ⟨i, hi, rfl⟩
    exact ⟨hi, rfl⟩
  · rintro ⟨hi, hevent⟩
    exact ⟨_, hi, hevent.symm⟩

@[simp] theorem only_starts (count : Nat) : Only (starts count) [.start] := by
  intro event hevent
  rw [(mem_starts.mp hevent).2]
  exact List.mem_singleton_self _

@[simp] theorem map_pass_starts (count : Nat) :
    (starts count).map RoundEvent.pass = List.range count := (List.map_map ..).trans (List.map_id _)

@[simp] theorem findSome?_starts (count : Nat) :
    (starts count).findSome? RoundEvent.failure? = none := by
  simp [starts]

namespace Only

theorem append (h : journal.Only steps) (h' : journal'.Only steps) :
    Only (journal ++ journal') steps := List.forall_mem_append.mpr ⟨h, h'⟩

theorem passes_eq (h : journal.Only [step]) :
    journal.passes step = journal.map RoundEvent.pass := by
  rw [passes, List.filter_eq_self.mpr fun event hevent => by simpa using h event hevent]

theorem passes_eq_nil (h : journal.Only steps) (hstep : step ∉ steps) :
    journal.passes step = [] := by
  have hnone : ∀ event ∈ journal, ¬decide (event.step = step) = true := fun event hevent heq =>
    hstep (of_decide_eq_true heq ▸ h event hevent)
  rw [passes, List.filter_eq_nil_iff.mpr hnone, List.map_nil]

theorem failure?_eq (h : journal.Only steps) :
    journal.failure? steps = journal.findSome? RoundEvent.failure? := by
  rw [failure?, List.filter_eq_self.mpr fun event hevent => by simpa using h event hevent]

theorem failure?_eq_none (h : journal.Only steps) (hdisjoint : steps.Disjoint others) :
    journal.failure? others = none := by
  have hnone : ∀ event ∈ journal, ¬decide (event.step ∈ others) = true := fun event hevent hother =>
    hdisjoint (h event hevent) (of_decide_eq_true hother)
  rw [failure?, List.filter_eq_nil_iff.mpr hnone, List.findSome?_nil]

end Only

theorem before_eq_append {front back before after : Journal} {event : RoundEvent}
    (h : front ++ back = before ++ event :: after) (hfront : event ∉ front) :
    ∃ middle, before = front ++ middle ∧ back = middle ++ event :: after := by
  rcases List.append_eq_append_iff.mp h with ⟨middle, hbefore, hback⟩ | ⟨rest, hrest, hevent⟩
  · exact ⟨middle, hbefore, hback⟩
  · cases rest with
    | nil => exact ⟨[], by simpa using hrest.symm, by simpa using hevent.symm⟩
    | cons first rest =>
      obtain ⟨rfl, -⟩ := List.cons.inj hevent
      exact absurd (by simp [hrest]) hfront

end Journal

open Journal

/-- How a round of so many passes goes, whatever fails, and what it answers. -/
structure Balanced (count : Nat) (journal : Journal) (answer : Except OptimizerError Bool) :
    Prop where
  /-- Passes are started in order. -/
  starts_prefix : journal.passes .start <+: List.range count
  /-- A pass that has started is finished once, and no other is. -/
  finished : ∀ i, (journal.passes .finish).count i = if ⟨i, .start, none⟩ ∈ journal then 1 else 0
  /-- When a pass runs, all have started and none is finished. -/
  runs_between : ∀ before event after, journal = before ++ event :: after → event.step = .run →
    (∀ i < count, ⟨i, .start, none⟩ ∈ before) ∧ passes before .finish = []
  /-- Those before one that cannot start are finished in reverse order. -/
  refused : ∀ i e, ⟨i, .start, some e⟩ ∈ journal → journal.passes .finish = (List.range i).reverse
  /-- If all can start, all are finished in order. -/
  completed : (∀ i e, ⟨i, .start, some e⟩ ∉ journal) → journal.passes .finish = List.range count
  /-- A failure to start is answered first, then one of a run or a check, then one to finish. -/
  failure_eq : failureOf? answer =
    (journal.failure? [.start]).or
      ((journal.failure? [.run, .check]).or (journal.failure? [.finish]))

namespace Balanced

variable {count k : Nat} {runs finishes : Journal} {answer : Except OptimizerError Bool}
    {e : OptimizerError}

theorem of_refused (hk : k < count) (hfinishes : finishes.Only [.finish])
    (hpasses : finishes.map RoundEvent.pass = (List.range k).reverse) :
    Balanced count (starts k ++ ⟨k, .start, some e⟩ :: finishes) (.error e) := by
  have hstarted : Only (starts k ++ [⟨k, .start, some e⟩]) [.start] :=
    (only_starts k).append (by simp [Only])
  have hsplit : starts k ++ ⟨k, .start, some e⟩ :: finishes = (starts k ++ [⟨k, .start, some e⟩]) ++
      finishes := by simp
  have hnone : ∀ i error, (⟨i, .start, error⟩ : RoundEvent) ∉ finishes := fun i error hevent => by
    simpa using hfinishes _ hevent
  rw [hsplit]
  have hfinished : passes ((starts k ++ [⟨k, .start, some e⟩]) ++ finishes) .finish =
      (List.range k).reverse := by
    rw [passes_append, hstarted.passes_eq_nil (by simp), hfinishes.passes_eq, hpasses,
      List.nil_append]
  refine ⟨?_, fun i => ?_, fun before event after heq hrun => ?_, fun i error hevent => ?_,
    fun hall => ?_, ?_⟩
  · rw [passes_append, hstarted.passes_eq, hfinishes.passes_eq_nil (by simp), List.map_append,
      map_pass_starts, List.append_nil]
    show List.range k ++ [k] <+: _
    rw [← List.range_succ]
    exact List.prefix_iff_eq_take.mpr
      (by rw [List.length_range, List.take_range, Nat.min_eq_left hk])
  · rw [hfinished, List.count_reverse, List.count_range]
    simp [hnone]
  · -- nothing has run
    have hevent : event ∈ (starts k ++ [⟨k, .start, some e⟩]) ++ finishes := by simp [heq]
    rcases List.mem_append.mp hevent with hevent | hevent
    · simpa [hrun] using hstarted event hevent
    · simpa [hrun] using hfinishes event hevent
  · rw [hfinished]
    simp [hnone] at hevent
    rw [hevent.1]
  · exact absurd (by simp) (hall k e)
  · rw [failure?_append, hstarted.failure?_eq]
    simp [failureOf?]

theorem of_completed (hruns : runs.Only [.run, .check]) (hfinishes : finishes.Only [.finish])
    (hpasses : finishes.map RoundEvent.pass = List.range count)
    (hanswer : failureOf? answer =
      (runs.findSome? RoundEvent.failure?).or (finishes.findSome? RoundEvent.failure?)) :
    Balanced count (starts count ++ runs ++ finishes) answer := by
  have hstarts := only_starts count
  have hnone : ∀ i error, (⟨i, .start, error⟩ : RoundEvent) ∉ runs ∧
      (⟨i, .start, error⟩ : RoundEvent) ∉ finishes :=
    fun i error =>
      ⟨fun hevent => by simpa using hruns _ hevent, fun hevent => by simpa using hfinishes _ hevent⟩
  have hfinished : passes (starts count ++ runs ++ finishes) .finish = List.range count := by
    rw [passes_append, passes_append, hstarts.passes_eq_nil (by simp),
      hruns.passes_eq_nil (by simp), hfinishes.passes_eq, hpasses, List.nil_append, List.nil_append]
  have hstarted : passes (starts count ++ runs ++ finishes) .start = List.range count := by
    rw [passes_append, passes_append, hstarts.passes_eq, hruns.passes_eq_nil (by simp),
      hfinishes.passes_eq_nil (by simp), map_pass_starts, List.append_nil, List.append_nil]
  refine ⟨hstarted ▸ List.prefix_rfl, fun i => ?_, fun before event after heq hrun => ?_,
    fun i error hevent => ?_, fun _ => hfinished, ?_⟩
  · rw [hfinished, List.count_range]
    simp [hnone]
  · -- what has run stands behind all starts and before all finishes
    have hstart : event ∉ starts count := fun hevent => by simpa [hrun] using hstarts event hevent
    have hfinish : event ∉ finishes := fun hevent => by simpa [hrun] using hfinishes event hevent
    rw [List.append_assoc] at heq
    obtain ⟨ran, rfl, hrest⟩ := before_eq_append heq hstart
    refine ⟨fun i hi => List.mem_append_left _ (mem_starts.mpr ⟨hi, rfl⟩), ?_⟩
    rcases List.append_eq_append_iff.mp hrest with ⟨front, -, hback⟩ | ⟨back, hback, -⟩
    · exact absurd (hback ▸ List.mem_append_right _ List.mem_cons_self) hfinish
    · have hran : ran.Only [.run, .check] := fun event hevent =>
        hruns event (hback ▸ List.mem_append_left _ hevent)
      rw [passes_append, hstarts.passes_eq_nil (by simp), hran.passes_eq_nil (by simp),
        List.nil_append]
  · simp [hnone] at hevent
  · have hstart : failure? (starts count ++ runs ++ finishes) [.start] = none := by
      rw [failure?_append, failure?_append, hstarts.failure?_eq, findSome?_starts,
        hruns.failure?_eq_none (by simp), hfinishes.failure?_eq_none (by simp)]
      rfl
    have hrun : failure? (starts count ++ runs ++ finishes) [.run, .check] =
        runs.findSome? RoundEvent.failure? := by
      rw [failure?_append, failure?_append, hstarts.failure?_eq_none (by simp), hruns.failure?_eq,
        hfinishes.failure?_eq_none (by simp), Option.none_or, Option.or_none]
    have hfinish : failure? (starts count ++ runs ++ finishes) [.finish] =
        finishes.findSome? RoundEvent.failure? := by
      rw [failure?_append, failure?_append, hstarts.failure?_eq_none (by simp),
        hruns.failure?_eq_none (by simp), hfinishes.failure?_eq, Option.none_or, Option.none_or]
    rw [hanswer, hstart, hrun, hfinish, Option.none_or]

end Balanced

/-- A run of a pass, with the check of what it has changed where such checks are made. -/
def runEvents (checksEach : Bool) (i : Nat) (context : Context α)
    (result : Except OptimizerError Bool) (r : Routine α) : Journal :=
  match result with
  | .ok changed =>
    ⟨i, .run, none⟩ ::
      if changed && checksEach then [⟨i, .check, failureOf? (r.checked context)⟩] else []
  | .error e => [⟨i, .run, some e⟩]

def RoutinePass.journaled (checksEach : Bool) (pass : RoutinePass σ α) (i : Nat) :
    RoutinePass (σ × Journal) α where
  name := pass.name
  start p := fun (world, journal) =>
    let (result, world) := (pass.start p).run world
    (result, world, journal ++ [⟨i, .start, failureOf? result⟩])
  run context := fun (r, world, journal) =>
    let (result, r, world) := (pass.run context).run (r, world)
    (result, r, world, journal ++ runEvents checksEach i context result r)
  finish := fun (world, journal) =>
    let (result, world) := pass.finish.run world
    (result, world, journal ++ [⟨i, .finish, failureOf? result⟩])

def RoutinePass.journalAll (checksEach : Bool) (passes : List (RoutinePass σ α × Nat)) :
    List (RoutinePass (σ × Journal) α) :=
  passes.map fun pass => pass.1.journaled checksEach pass.2

def RoutineSchedule.journaled (s : RoutineSchedule σ α) : RoutineSchedule (σ × Journal) α :=
  ⟨RoutinePass.journalAll s.checksEach s.passes.zipIdx, s.checksEach⟩

namespace RoutinePass

variable (checksEach : Bool) (pass : RoutinePass σ α) (i : Nat) (journal : Journal)

theorem start_journal (p : Program α) (s : σ) :
    Shadows Prod.mk ((pass.journaled checksEach i).start p) (pass.start p) s journal
      fun r _ journal' => journal' = journal ++ [⟨i, .start, failureOf? r⟩] := ⟨_, rfl, rfl⟩

theorem run_journal (context : Context α) (t : Routine α × σ) :
    Shadows beside ((pass.journaled checksEach i).run context) (pass.run context) t journal
      fun r t journal' => journal' = journal ++ runEvents checksEach i context r t.1 :=
  ⟨_, rfl, rfl⟩

theorem finish_journal (s : σ) :
    Shadows Prod.mk (pass.journaled checksEach i).finish pass.finish s journal
      fun r _ journal' => journal' = journal ++ [⟨i, .finish, failureOf? r⟩] := ⟨_, rfl, rfl⟩

end RoutinePass

namespace RoutineSchedule

open RoutinePass

theorem finishAll_journal (checksEach : Bool) (passes : List (RoutinePass σ α × Nat)) (s : σ)
    (journal : Journal) :
    Shadows Prod.mk (finishAll (journalAll checksEach passes)) (finishAll (passes.map Prod.fst)) s
      journal fun r _ journal' => ∃ finishes : Journal, journal' = journal ++ finishes ∧
      finishes.Only [.finish] ∧
        finishes.map RoundEvent.pass = passes.map Prod.snd ∧
        failureOf? r = finishes.findSome? RoundEvent.failure? := by
  induction passes generalizing s journal with
  | nil => exact .pure ⟨[], by simp [Only, failureOf?]⟩
  | cons pass rest ih =>
    refine .outcome_bind ((finish_journal checksEach pass.1 pass.2 journal s).imp
      fun first s journal₁ h => ?_)
    refine .outcome_bind ((ih s journal₁).imp fun others s journal₂ ⟨finishes, hjournal, honly,
      hpasses, hfailure⟩ => ?_)
    subst h
    have hfinishes : Only (⟨pass.2, .finish, failureOf? first⟩ :: finishes) [.finish] :=
      List.forall_mem_cons.mpr ⟨List.mem_singleton_self _, honly⟩
    refine .bind (.ofExcept ?_)
    cases first with
    | error e => exact ⟨_, by simp [hjournal], hfinishes, by simp [hpasses], rfl⟩
    | ok _ => exact .ofExcept ⟨_, by simp [hjournal], hfinishes, by simp [hpasses], hfailure⟩

/-- Passes are started until one cannot; then those that have started are finished, the last one
first. -/
theorem startAll_journal (checksEach : Bool) (p : Program α)
    (passes started : List (RoutinePass σ α × Nat)) (s : σ) (journal : Journal) :
    Shadows Prod.mk (startAll p (journalAll checksEach started) (journalAll checksEach passes))
      (startAll p (started.map Prod.fst) (passes.map Prod.fst)) s journal fun r _ journal' =>
        match r with
        | .ok _ => journal' = journal ++ passes.map fun pass => ⟨pass.2, .start, none⟩
        | .error e => ∃ front refused back finishes, passes = front ++ refused :: back ∧
            journal' = journal ++ (front.map (fun pass => ⟨pass.2, .start, none⟩) ++
              ⟨refused.2, .start, some e⟩ :: finishes) ∧ Only finishes [.finish] ∧
            finishes.map RoundEvent.pass = (front.reverse ++ started).map Prod.snd := by
  induction passes generalizing started s journal with
  | nil => exact .pure (by simp)
  | cons pass rest ih =>
    refine .outcome_bind ((start_journal checksEach pass.1 pass.2 journal p s).imp
      fun r s journal₁ h => ?_)
    subst h
    cases r with
    | ok _ =>
      refine (ih (pass :: started) s _).imp fun r s journal' h => ?_
      cases r with
      | ok _ => simpa [failureOf?] using h
      | error e =>
        obtain ⟨front, refused, back, finishes, rfl, hjournal, honly, hpasses⟩ := h
        exact ⟨pass :: front, refused, back, finishes, rfl,
          by simp [hjournal, failureOf?], honly, by simp [hpasses]⟩
    | error e =>
      refine .outcome_bind ((finishAll_journal checksEach started s _).imp fun _ s journal' h => ?_)
      obtain ⟨finishes, hjournal, honly, hpasses, -⟩ := h
      exact ⟨journal', rfl, [], pass, rest, finishes, rfl,
        by simp [hjournal, failureOf?], honly, by simpa using hpasses⟩

/-- Passes did nothing but run and be checked, up to the first failure. -/
def Ran (journal journal' : Journal) (result : Except OptimizerError β) : Prop :=
  ∃ runs : Journal, journal' = journal ++ runs ∧ runs.Only [.run, .check] ∧
    failureOf? result = runs.findSome? RoundEvent.failure?

section Ran

variable {γ : Type} {journal₁ journal₂ journal₃ : Journal} {b : β}
    {result : Except OptimizerError γ}

@[simp] theorem Ran.refl (journal : Journal) (b : β) :
    Ran journal journal (.ok b : Except OptimizerError β) := ⟨[], by simp [Only, failureOf?]⟩

theorem Ran.trans (h : Ran journal₁ journal₂ (.ok b : Except OptimizerError β))
    (h' : Ran journal₂ journal₃ result) :
    Ran journal₁ journal₃ result := by
  obtain ⟨runs, rfl, honly, hfailure⟩ := h
  obtain ⟨runs', rfl, honly', hfailure'⟩ := h'
  refine ⟨runs ++ runs', by simp, honly.append honly', ?_⟩
  rw [List.findSome?_append, ← hfailure, hfailure', failureOf?, Option.none_or]

end Ran

theorem runAll_journal (checksEach : Bool) (context : Context α)
    (passes : List (RoutinePass σ α × Nat)) (t : Routine α × σ) (journal : Journal) :
    Shadows beside (runAll checksEach context (journalAll checksEach passes))
      (runAll checksEach context (passes.map Prod.fst)) t journal fun r _ journal' =>
        Ran journal journal' r := by
  induction passes generalizing t journal with
  | nil => exact .pure (.refl journal false)
  | cons pass rest ih =>
    refine .bind ((run_journal checksEach pass.1 pass.2 journal context t).imp fun r t journal₁ h =>
      ?_)
    cases r with
    | error e => exact ⟨_, h, by simp [Only, runEvents], rfl⟩
    | ok changed =>
      have hrest : Ran journal journal₁ (.ok changed : Except OptimizerError Bool) → Shadows beside
          (do return (← runAll checksEach context (journalAll checksEach rest)) || changed)
          (do return (← runAll checksEach context (rest.map Prod.fst)) || changed) t journal₁
          fun r _ journal' => Ran journal journal' r := fun hran => by
        refine .bind ((ih t journal₁).imp fun r t journal₂ h => ?_)
        cases r with
        | error e => exact hran.trans h
        | ok more => exact .pure (hran.trans h)
      by_cases hc : (changed && checksEach) = true
      · simp only [if_pos hc, runEvents] at h ⊢
        refine .get_bind (.bind (.ofExcept ?_))
        cases hchecked : t.1.checked context with
        | error e => exact ⟨_, h, by simp [Only], by simp [hchecked, failureOf?]⟩
        | ok _ => exact hrest ⟨_, h, by simp [Only], by simp [hchecked, failureOf?]⟩
      · simp only [if_neg hc, runEvents] at h ⊢
        exact hrest ⟨_, h, by simp [Only], by simp [failureOf?]⟩

variable (s : RoutineSchedule σ α) (context : Context α) (t : Program α × σ) (journal : Journal)

theorem runAt_journal (index : Nat) :
    Shadows beside (s.journaled.runAt context index) (s.runAt context index) t journal
      fun r _ journal' => Ran journal journal' r := by
  refine .get_bind ?_
  cases hr : t.1.routines[index]? with
  | none => exact .pure (.refl journal false)
  | some r =>
    have hrun := runAll_journal s.checksEach context s.passes.zipIdx (r, t.2) journal
    rw [List.zipIdx_map_fst] at hrun
    refine .bind (.onSnd id (.within (hrun.imp fun result _ journal' h => ?_)))
    exact .bind (.modify rfl (.ofExcept h))

theorem runOn_journal (indices : List Nat) :
    Shadows beside (s.journaled.runOn context indices) (s.runOn context indices) t journal
      fun r _ journal' => Ran journal journal' r := by
  induction indices generalizing t journal with
  | nil => exact .pure (.refl journal false)
  | cons index rest ih =>
    refine .bind ((runAt_journal s context t journal index).imp fun r t journal₁ h => ?_)
    cases r with
    | error e => exact h
    | ok changed =>
      refine .bind ((ih t journal₁).imp fun r t journal₂ h' => ?_)
      cases r with
      | error e => exact h.trans h'
      | ok more => exact .pure (h.trans h')

theorem positions_of_zipIdx {passes : List (RoutinePass σ α)}
    {front back : List (RoutinePass σ α × Nat)} {refused : RoutinePass σ α × Nat}
    (h : passes.zipIdx = front ++ refused :: back) :
    front.map Prod.snd = List.range front.length ∧ refused.2 = front.length ∧
    front.length < passes.length := by
  have hlength : passes.length = front.length + (back.length + 1) := by
    simpa using congrArg List.length h
  have hpositions : List.range passes.length = front.map Prod.snd ++ refused.2 ::
      back.map Prod.snd := by
    rw [List.range_eq_range', ← List.zipIdx_map_snd 0 passes, h]
    simp
  refine ⟨?_, ?_, by omega⟩
  · have htake := congrArg (List.take front.length) hpositions
    simpa [List.take_range, hlength] using htake.symm
  · have hget := congrArg (·[front.length]?) hpositions
    simpa [hlength] using hget.symm

theorem map_eq_starts {passes : List (RoutinePass σ α × Nat)} {count : Nat}
    (h : passes.map Prod.snd = List.range count) :
    (passes.map fun pass => (⟨pass.2, .start, none⟩ : RoundEvent)) = starts count := by
  rw [starts, ← h, List.map_map]
  rfl

/-- A round balances. -/
theorem asProgramPass_journal :
    Shadows beside s.journaled.asProgramPass.run s.asProgramPass.run t journal fun r _ journal' =>
      ∃ round, journal' = journal ++ round ∧ Balanced s.passes.length round r := by
  have hstart := startAll_journal s.checksEach t.1 s.passes.zipIdx [] t.2 journal
  rw [List.zipIdx_map_fst] at hstart
  refine .get_bind (.bind (.onSnd id (hstart.imp fun r world journal₁ h => ?_)))
  cases r with
  | error e =>
    obtain ⟨front, refused, back, finishes, hzip, hjournal, honly, hpasses⟩ := h
    obtain ⟨hfront, hrefused, hlt⟩ := positions_of_zipIdx hzip
    rw [map_eq_starts hfront, hrefused] at hjournal
    exact ⟨_, hjournal, .of_refused hlt honly (by simp [hpasses, hfront])⟩
  | ok _ =>
    refine .outcome_bind (.get_bind
      ((runOn_journal s _ _ journal₁ _).imp fun changed t journal₂ hran => ?_))
    have hfinish := finishAll_journal s.checksEach s.passes.zipIdx t.2 journal₂
    rw [List.zipIdx_map_fst] at hfinish
    refine .outcome_bind (.onSnd id (hfinish.imp fun finished world journal₃ hfinished => ?_))
    have hpositions : s.passes.zipIdx.map Prod.snd = List.range s.passes.length := by
      rw [List.zipIdx_map_snd, List.range_eq_range']
    obtain ⟨runs, hruns, honly, hfailure⟩ := hran
    obtain ⟨finishes, hfinishes, honly', hpasses, hfailure'⟩ := hfinished
    have hround : journal₃ = journal ++ (starts s.passes.length ++ runs ++ finishes) := by
      rw [hfinishes, hruns, h, map_eq_starts hpositions]
      simp
    have hbalanced : ∀ answer, failureOf? answer = (failureOf? changed).or (failureOf? finished) →
        Balanced s.passes.length (starts s.passes.length ++ runs ++ finishes) answer :=
        fun answer hanswer =>
      .of_completed honly honly' (hpasses.trans hpositions) (by rw [hanswer, hfailure, hfailure'])
    refine .bind (.ofExcept ?_)
    cases changed with
    | error e => exact ⟨_, hround, hbalanced _ rfl⟩
    | ok changed =>
      refine .bind (.ofExcept ?_)
      cases finished with
      | error e => exact ⟨_, hround, hbalanced _ rfl⟩
      | ok _ => exact .pure ⟨_, hround, hbalanced _ rfl⟩

end RoutineSchedule

def ProgramPass.repeated (pass : ProgramPass σ α) : Nat →
    Attempt (Program α × σ) (List (Except OptimizerError Bool))
  | 0 => return []
  | rounds + 1 => do
    let answer ← pass.run.outcome
    return answer :: (← pass.repeated rounds)

theorem RoutineSchedule.repeated_journal (s : RoutineSchedule σ α) (rounds : Nat)
    (t : Program α × σ) (journal : Journal) :
    Shadows beside (s.journaled.asProgramPass.repeated rounds) (s.asProgramPass.repeated rounds) t
      journal fun r _ journal' => ∃ answers journals, r = .ok answers ∧
      journal' = journal ++ List.flatten journals ∧
        answers.length = rounds ∧ List.Forall₂ (Balanced s.passes.length) journals answers := by
  induction rounds generalizing t journal with
  | zero => exact .pure ⟨[], [], rfl, by simp, rfl, .nil⟩
  | succ rounds ih =>
    refine .outcome_bind ((s.asProgramPass_journal t journal).imp fun answer t journal₁ h => ?_)
    obtain ⟨round, rfl, hround⟩ := h
    refine .bind ((ih t _).imp fun r t journal₂ h => ?_)
    obtain ⟨answers, journals, rfl, rfl, hlength, hrounds⟩ := h
    exact .pure ⟨answer :: answers, round :: journals, rfl,
      by simp, by simp [hlength], .cons hround hrounds⟩

/-- Consecutive rounds of any passes, on any program, each keep the balance, and writing them down
changes nothing of what they do. -/
theorem RoutineSchedule.rounds_balanced (s : RoutineSchedule σ α) (rounds : Nat) (p : Program α)
    (world : σ) :
    ∃ (answers : List (Except OptimizerError Bool)) (p' : Program α) (world' : σ)
      (journals : List Journal),
      (s.asProgramPass.repeated rounds).run (p, world) = (.ok answers, p', world') ∧
      (s.journaled.asProgramPass.repeated rounds).run (p, world, []) =
        (.ok answers, p', world', journals.flatten) ∧
      answers.length = rounds ∧ List.Forall₂ (Balanced s.passes.length) journals answers := by
  obtain ⟨journal, hrun, answers, journals, hanswers, rfl, hlength, hrounds⟩ :=
    s.repeated_journal rounds (p, world) []
  refine ⟨answers, _, _, journals, Prod.ext hanswers rfl, ?_, hlength, hrounds⟩
  rw [hrun, hanswers]
  rfl

/-- Of a failure to run and one to finish the first is answered, and both passes are finished. -/
example :
    let broken : RoutinePass Unit Float := ⟨"broken", fun _ => return,
      fun _ => throw (.passFailed "broken" "no run"), throw (.notFinished "broken" "no end")⟩
    let s : RoutineSchedule Unit Float := ⟨[broken, .check], true⟩
    let p : Program Float := ⟨"p", #[], [.ofBody "wait" .external []]⟩
    (s.asProgramPass.run.run (p, ())).1 = .error (.passFailed "broken" "no run") ∧
      (s.journaled.asProgramPass.run.run (p, (), [])).2.2.2 =
        [⟨0, .start, none⟩, ⟨1, .start, none⟩, ⟨0, .run, some (.passFailed "broken" "no run")⟩,
          ⟨0, .finish, some (.notFinished "broken" "no end")⟩, ⟨1, .finish, none⟩] := ⟨rfl, rfl⟩

end StreamStats
