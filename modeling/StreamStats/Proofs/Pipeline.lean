import StreamStats.Optimizer
import StreamStats.Proofs.Attempts
import StreamStats.Proofs.Folding
import StreamStats.Proofs.Inlining
import StreamStats.Proofs.Packing
import StreamStats.Proofs.Reaching
import StreamStats.Proofs.Sweeping
import StreamStats.Proofs.Widening

/-! Schedules of passes on tame programs. Every pass succeeds and leaves a tame program with the
same answers, which the checks in between accept; so a whole schedule does, and an optimizer that
follows a plan. -/

namespace StreamStats

open ExceptT

variable {σ α : Type} [Scalar α] {S : Set α}

/-- The pass starts and finishes, and turns tame routines into tame ones that do the same. -/
structure RoutinePass.Sound (S : Set α) (pass : RoutinePass σ α) : Prop where
  start : ∀ p s, (pass.start p).Succeeds s fun _ _ => True
  run : ∀ (context : Context α) (r : Routine α) (s : σ), r.Tame context S →
    (pass.run context).Succeeds (r, s) fun _ t =>
      t.1.Tame context S ∧ r.Imitates (Memory.Same context.segments) t.1
  finish : ∀ s, pass.finish.Succeeds s fun _ _ => True

theorem Routine.Tame.checked_eq_ok {context : Context α} {r : Routine α} (h : r.Tame context S) :
    r.checked context = .ok () := by
  rw [Routine.checked, h.sound.check_eq_ok]
  rfl

namespace RoutinePass

theorem sound_ofTransform {name : String} {transform : Context α → Routine α → Routine α × Bool}
    (h : ∀ (context : Context α) (r : Routine α), r.Tame context S →
      (transform context r).1.Tame context S ∧
      r.Imitates (Memory.Same context.segments) (transform context r).1) :
    (ofTransform name transform : RoutinePass σ α).Sound S := by
  refine ⟨fun _ _ => succeeds_pure trivial, fun context r s hr => ?_, fun _ =>
    succeeds_pure trivial⟩
  refine .bind (succeeds_get ?_)
  refine .bind (succeeds_set ?_)
  exact succeeds_pure (h context r hr)

@[simp] theorem sound_check : (check : RoutinePass σ α).Sound S := by
  refine ⟨fun _ _ => succeeds_pure trivial, fun context r s hr => ?_, fun _ =>
    succeeds_pure trivial⟩
  refine .bind (succeeds_get ?_)
  refine .bind (succeeds_ofExcept hr.checked_eq_ok ?_)
  exact succeeds_pure ⟨hr, hr.imitates_self⟩

end RoutinePass

namespace RoutineSchedule

/-- All passes are sound. -/
def Sound (S : Set α) (s : RoutineSchedule σ α) : Prop := ∀ pass ∈ s.passes, pass.Sound S

theorem finishAll_succeeds {passes : List (RoutinePass σ α)} (h : ∀ pass ∈ passes, pass.Sound S)
    (world : σ) :
    (finishAll passes).Succeeds world fun _ _ => True := by
  induction passes generalizing world with
  | nil => exact succeeds_pure trivial
  | cons pass rest ih =>
    refine .bind (.outcome (((h pass List.mem_cons_self).finish world).imp fun _ world _ => ?_))
    refine .bind (.outcome ((ih (fun pass hp => h pass (List.mem_cons_of_mem _ hp)) world).imp
      fun _ world _ => ?_))
    exact .bind (succeeds_ofExcept rfl (succeeds_ofExcept rfl trivial))

theorem startAll_succeeds {passes : List (RoutinePass σ α)} (h : ∀ pass ∈ passes, pass.Sound S)
    (p : Program α) (started : List (RoutinePass σ α)) (world : σ) :
    (startAll p started passes).Succeeds world fun _ _ => True := by
  induction passes generalizing started world with
  | nil => exact succeeds_pure trivial
  | cons pass rest ih =>
    refine .bind (.outcome (((h pass List.mem_cons_self).start p world).imp fun _ world _ => ?_))
    exact ih (fun pass hp => h pass (List.mem_cons_of_mem _ hp)) (pass :: started) world

theorem runAll_succeeds {passes : List (RoutinePass σ α)} (h : ∀ pass ∈ passes, pass.Sound S)
    (checksEach : Bool) {context : Context α} {r : Routine α} (hr : r.Tame context S) (world : σ) :
    (runAll checksEach context passes).Succeeds (r, world) fun _ t =>
      t.1.Tame context S ∧ r.Imitates (Memory.Same context.segments) t.1 := by
  induction passes generalizing r world with
  | nil => exact succeeds_pure ⟨hr, hr.imitates_self⟩
  | cons pass rest ih =>
    refine .bind (((h pass List.mem_cons_self).run context r world hr).imp ?_)
    rintro changed ⟨r₁, world₁⟩ ⟨h₁, hi₁⟩
    have hrest : (runAll checksEach context rest).Succeeds (r₁, world₁) fun _ t =>
        t.1.Tame context S ∧ r.Imitates (Memory.Same context.segments) t.1 :=
      (ih (fun pass hp => h pass (List.mem_cons_of_mem _ hp)) h₁ world₁).imp
        fun _ _ ht => ⟨ht.1, hi₁.trans ht.2⟩
    by_cases hc : (changed && checksEach) = true
    · simp only [if_pos hc]
      refine .bind (succeeds_get ?_)
      refine .bind (succeeds_ofExcept h₁.checked_eq_ok ?_)
      exact .bind (hrest.imp fun _ _ ht => succeeds_pure ht)
    · simp only [if_neg hc]
      exact .bind (hrest.imp fun _ _ ht => succeeds_pure ht)

end RoutineSchedule

namespace Program

/-- A program that passes may make of another: of the same name, tame, with a name for each routine,
and with the same answers. -/
structure Becomes (S : Set α) (entry : String) (p q : Program α) : Prop where
  name_eq : q.name = p.name
  tame : q.Tame S
  nodup : q.routineNames.Nodup
  answers : p.Answers entry q

variable {p q : Program α} {entry : String}

theorem Becomes.checked_eq_ok (h : p.Becomes S entry q) : q.checked = .ok () := by
  have hcheck : q.check = .ok () :=
    check_eq_ok_iff.mpr ⟨h.nodup, fun r hr => (h.tame r hr).sound.check_eq_ok⟩
  rw [checked, hcheck]
  rfl

/-- Putting a routine in the place of one that does the same. -/
theorem Becomes.setRoutine (h : p.Becomes S entry q) {index : Nat} {r r' : Routine α}
    (hr : q.routines[index]? = some r) (ht : r'.Tame q.context S)
    (hi : r.Imitates (Memory.Same q.segments) r') :
    (q.setRoutine index r').context = q.context ∧ p.Becomes S entry (q.setRoutine index r') := by
  obtain ⟨hc, ht', ha⟩ : (q.setRoutine index r').context = q.context ∧
    (q.setRoutine index r').Tame S ∧ q.Answers entry (q.setRoutine index r') := by
    refine Tame.of_forall₂ (p := q) (q := q.setRoutine index r') (D := ∅) rfl ?_ (by simp) entry
    rw [Memory.sameOff_empty]
    refine forall₂_set (fun r hr => ?_) hr ⟨ht, hi⟩
    exact ⟨h.tame r hr, (h.tame r hr).imitates_self⟩
  refine ⟨hc, h.name_eq, ht', ?_, h.answers.trans ha⟩
  have hnames : (q.setRoutine index r').routineNames = q.routineNames :=
    congrArg Context.routines hc
  exact hnames ▸ h.nodup

end Program

namespace RoutineSchedule

variable {s : RoutineSchedule σ α} {p q : Program α} {entry : String}

theorem runAt_succeeds (hs : s.Sound S) (h : p.Becomes S entry q) (index : Nat) (world : σ) :
    (s.runAt q.context index).Succeeds (q, world) fun _ t => t.1.context = q.context ∧
    p.Becomes S entry t.1 := by
  refine .bind (succeeds_get ?_)
  cases hr : q.routines[index]? with
  | none => exact succeeds_pure ⟨rfl, h⟩
  | some r =>
    have htame : r.Tame q.context S := h.tame r (List.mem_of_getElem? hr)
    refine .bind (.onSnd (.within ((runAll_succeeds hs s.checksEach htame world).imp ?_)))
    rintro changed ⟨r', world'⟩ ⟨ht, hi⟩
    refine .bind (succeeds_modify ?_)
    exact succeeds_ofExcept rfl (h.setRoutine hr ht hi)

theorem runOn_succeeds (hs : s.Sound S) (h : p.Becomes S entry q) {context : Context α}
    (hq : q.context = context) (indices : List Nat) (world : σ) :
    (s.runOn context indices).Succeeds (q, world) fun _ t => t.1.context = context ∧
    p.Becomes S entry t.1 := by
  induction indices generalizing q world with
  | nil => exact succeeds_pure ⟨hq, h⟩
  | cons index rest ih =>
    subst hq
    refine .bind ((runAt_succeeds hs h index world).imp ?_)
    rintro changed ⟨q', world'⟩ ⟨hc, h'⟩
    exact .bind ((ih h' hc world').imp fun _ _ ht => succeeds_pure ht)

end RoutineSchedule

namespace ProgramPass

/-- From such programs the pass succeeds and leads to such programs. -/
def Leads (P Q : Program α → Prop) (pass : ProgramPass σ α) : Prop :=
  ∀ p (s : σ), P p → pass.run.Succeeds (p, s) fun _ t => Q t.1

variable {P Q : Program α → Prop}

omit [Scalar α] in
theorem leads_ofTransform {name : String} {transform : Program α → Program α × Bool}
    (h : ∀ p, P p → Q (transform p).1) :
    (ofTransform name transform : ProgramPass σ α).Leads P Q := by
  intro p s hp
  refine .bind (succeeds_get ?_)
  refine .bind (succeeds_set ?_)
  exact succeeds_pure (h p hp)

omit [Scalar α] in
theorem leads_check (h : ∀ p, P p → p.checked = .ok ()) : (check : ProgramPass σ α).Leads P P := by
  intro p s hp
  refine .bind (succeeds_get ?_)
  refine .bind (succeeds_ofExcept (h p hp) ?_)
  exact succeeds_pure hp

theorem leads_asProgramPass {s : RoutineSchedule σ α} (hs : s.Sound S) (p : Program α)
    (entry : String) :
    s.asProgramPass.Leads (p.Becomes S entry) (p.Becomes S entry) := by
  intro q world h
  refine .bind (succeeds_get ?_)
  refine .bind (.onSnd ((RoutineSchedule.startAll_succeeds hs q [] world).imp fun _ world _ => ?_))
  have hrun : s.runOnProgram.Succeeds (q, world) fun _ t => p.Becomes S entry t.1 := by
    refine .bind (succeeds_get ?_)
    exact (RoutineSchedule.runOn_succeeds hs h rfl _ world).imp fun _ _ ht => ht.2
  refine .bind (.outcome (hrun.imp ?_))
  rintro changed ⟨q', world'⟩ h'
  refine .bind (.outcome (.onSnd ((RoutineSchedule.finishAll_succeeds hs world').imp fun _ _ _ =>
    ?_)))
  exact .bind (succeeds_ofExcept rfl (.bind (succeeds_ofExcept rfl (succeeds_pure h'))))

end ProgramPass

namespace ProgramSchedule

omit [Scalar α] in
/-- One pass after another; what the first leads to has to be fit for checks. -/
theorem runAll_cons {P P' Q : Program α → Prop} {pass : ProgramPass σ α}
    {rest : List (ProgramPass σ α)} (h : pass.Leads P P') (hc : ∀ p, P' p → p.checked = .ok ())
    {checksEach : Bool} (hrest : ∀ p (world : σ), P' p →
      (runAll checksEach rest).Succeeds (p, world) fun _ t => Q t.1) (p : Program α)
    (world : σ) (hp : P p) :
    (runAll checksEach (pass :: rest)).Succeeds (p, world) fun _ t => Q t.1 := by
  refine .bind ((h p world hp).imp ?_)
  rintro changed ⟨q, world'⟩ hq
  by_cases hcheck : (changed && checksEach) = true
  · simp only [if_pos hcheck]
    refine .bind (succeeds_get ?_)
    refine .bind (succeeds_ofExcept (hc q hq) ?_)
    exact .bind ((hrest q world' hq).imp fun _ _ ht => succeeds_pure ht)
  · simp only [if_neg hcheck]
    exact .bind ((hrest q world' hq).imp fun _ _ ht => succeeds_pure ht)

omit [Scalar α] in
theorem runAll_of_forall {P : Program α → Prop} (hc : ∀ p, P p → p.checked = .ok ())
    {passes : List (ProgramPass σ α)} (h : ∀ pass ∈ passes, pass.Leads P P) (checksEach : Bool)
    (p : Program α) (world : σ) (hp : P p) :
    (runAll checksEach passes).Succeeds (p, world) fun _ t => P t.1 := by
  induction passes generalizing p world with
  | nil => exact succeeds_pure hp
  | cons pass rest ih =>
    obtain ⟨hpass, hrest⟩ := List.forall_mem_cons.mp h
    exact runAll_cons hpass hc (ih hrest) p world hp

end ProgramSchedule

/-- Packing, where it is planned for more than one lane, only ever sees numbers that it can tell
apart. -/
def Plan.Safe (S : Set α) (plan : Plan σ α) : Prop :=
  0 < plan.optLevel → 1 < plan.vectorWidth → plan.packChunks = true → Pack.Distinct S

namespace Plan

variable [LawfulScalar α] {plan : Plan σ α}

theorem sound_simplification (hplan : plan.Safe S) {placement : Placement}
    (hextras : ∀ extra ∈ plan.routineExtras, (extra placement).Sound S) :
    ∀ pass ∈ plan.simplification placement, pass.Sound S := by
  intro pass hpass
  simp only [simplification, List.mem_append, List.mem_ite_nil_right, List.mem_singleton,
    List.mem_map, Bool.and_eq_true, decide_eq_true_eq] at hpass
  rcases hpass with (((⟨-, rfl⟩ | ⟨-, rfl⟩) | ⟨⟨⟨hlevel, hwidth⟩, hpack⟩, rfl⟩) |
    ⟨extra, hmem, rfl⟩) | ⟨-, rfl⟩
  · exact RoutinePass.sound_ofTransform fun context r hr => Routine.foldConstants_tame hr
  · exact RoutinePass.sound_ofTransform fun context r hr =>
      Routine.widenLoops_tame hr plan.vectorWidth
  · exact RoutinePass.sound_ofTransform fun context r hr =>
      Routine.packChunks_tame (hplan hlevel hwidth hpack) hr plan.vectorWidth
  · exact hextras extra hmem
  · exact RoutinePass.sound_ofTransform fun context r hr => Routine.sweep_tame hr

theorem sound_routineSchedule (hplan : plan.Safe S)
    (hextras : ∀ extra ∈ plan.routineExtras, (extra .routines).Sound S) :
    plan.routineSchedule.Sound S :=
  List.forall_mem_cons.mpr ⟨RoutinePass.sound_check, sound_simplification hplan hextras⟩

end Plan

namespace Program

/-- A program that can be optimized for calls of `entry`: routines tame and with free registers
known, each of a name of its own, and `entry` callable from outside. -/
structure Ready (S : Set α) (entry : String) (p : Program α) : Prop where
  tame : p.Tame S
  nodup : p.routineNames.Nodup
  counted : ∀ r ∈ p.routines, r.Counted
  external : entry ∈ p.externalNames

variable {p : Program α} {entry : String}

theorem Ready.becomes_self (h : p.Ready S entry) : p.Becomes S entry p := by
  obtain ⟨-, ht, ha⟩ := Tame.of_forall₂ (p := p) (q := p) (D := ∅) rfl
    (List.forall₂_same.mpr fun r hr =>
      ⟨h.tame r hr, Memory.sameOff_empty ▸ (h.tame r hr).imitates_self⟩) (by simp) entry
  exact ⟨rfl, ht, h.nodup, ha⟩

theorem Ready.inlineCalls (h : p.Ready S entry) (limit : Option Nat) :
    p.Becomes S entry (p.inlineCalls limit).1 ∧ entry ∈ (p.inlineCalls limit).1.externalNames := by
  obtain ⟨hc, ht, ha⟩ := inlineCalls_tame h.tame h.nodup h.counted limit entry
  have hnames : (p.inlineCalls limit).1.routineNames = p.routineNames :=
    congrArg Context.routines hc
  have hexternal : (p.inlineCalls limit).1.externalNames = p.externalNames := by
    simp only [externalNames, Program.inlineCalls, List.filter_map, List.map_map]
    rfl
  exact ⟨⟨rfl, ht, hnames ▸ h.nodup, ha⟩, hexternal ▸ h.external⟩

theorem Becomes.dropUnreachable {q : Program α} (h : p.Becomes S entry q)
    (he : entry ∈ q.externalNames) :
    p.Becomes S entry q.dropUnreachable := by
  obtain ⟨ht, hn, ha⟩ := dropUnreachable_tame h.tame h.nodup he
  exact ⟨h.name_eq, ht, hn, h.answers.trans ha⟩

theorem Becomes.dropDeadStores {q : Program α} (h : p.Becomes S entry q) :
    p.Becomes S entry q.dropDeadStores := by
  obtain ⟨hc, ht, ha⟩ := dropDeadStores_tame h.tame entry
  have hnames : q.dropDeadStores.routineNames = q.routineNames := congrArg Context.routines hc
  exact ⟨q.name_dropDeadStores.trans h.name_eq, ht, hnames ▸ h.nodup, h.answers.trans ha⟩

end Program

namespace Plan

variable [LawfulScalar α] {plan : Plan σ α}

theorem programSchedule_succeeds (hplan : plan.Safe S) {p : Program α} {entry : String}
    (hp : p.Ready S entry) (hextras : ∀ extra ∈ plan.routineExtras, (extra .programs).Sound S)
    (hprograms : ∀ pass ∈ plan.programExtras, pass.Leads (p.Becomes S entry) (p.Becomes S entry))
    (world : σ) :
    plan.programSchedule.run.Succeeds (p, world) fun _ t => p.Becomes S entry t.1 := by
  have hchecked : ∀ q, p.Becomes S entry q → q.checked = .ok () := fun q hq => hq.checked_eq_ok
  have hself : ∀ q, q = p → q.checked = .ok () := fun q hq => hq ▸ hp.becomes_self.checked_eq_ok
  have hinline : (ProgramPass.inlineCalls plan.inlineLimit : ProgramPass σ α).Leads (· = p)
      fun q => p.Becomes S entry q ∧ entry ∈ q.externalNames :=
    ProgramPass.leads_ofTransform fun q hq => hq ▸ hp.inlineCalls plan.inlineLimit
  have hdrop : (ProgramPass.dropUnreachable : ProgramPass σ α).Leads
      (fun q => p.Becomes S entry q ∧ entry ∈ q.externalNames) (p.Becomes S entry) :=
    ProgramPass.leads_ofTransform fun q hq => hq.1.dropUnreachable hq.2
  -- only the passes before this point need to know more than what all of them keep
  have hrest : ∀ pass ∈ (if (plan.simplification .programs).isEmpty then []
        else [RoutineSchedule.asProgramPass ⟨plan.simplification .programs, plan.checksEach⟩]) ++
      (if 0 < plan.optLevel then [ProgramPass.dropDeadStores] else []) ++ plan.programExtras ++
        [ProgramPass.check], pass.Leads (p.Becomes S entry) (p.Becomes S entry) := by
    intro pass hpass
    simp only [List.mem_append, List.mem_ite_nil_left, List.mem_ite_nil_right, List.mem_singleton]
      at hpass
    rcases hpass with ((⟨-, rfl⟩ | ⟨-, rfl⟩) | hpass) | rfl
    · refine ProgramPass.leads_asProgramPass ?_ p entry
      exact sound_simplification hplan hextras
    · exact ProgramPass.leads_ofTransform fun q hq => hq.dropDeadStores
    · exact hprograms pass hpass
    · exact ProgramPass.leads_check hchecked
  have hrun := ProgramSchedule.runAll_cons (ProgramPass.leads_check hself) hself
    (ProgramSchedule.runAll_cons hinline (fun q hq => hchecked q hq.1)
      (ProgramSchedule.runAll_cons hdrop hchecked
        (ProgramSchedule.runAll_of_forall hchecked hrest plan.checksEach))) p world rfl
  simpa [ProgramSchedule.run, programSchedule] using hrun

end Plan

def OptimizerSettings.Packs (s : OptimizerSettings) (target : Option Target) : Prop :=
  0 < s.optLevel ∧ s.packChunks = true ∧ 1 < (target.map Target.vectorWidth).getD s.vectorWidth

def Plan.tuned (s : OptimizerSettings) (target : Option Target) : Plan σ α :=
  match target.map Target.tuning with
  | some t => t.adjust (ofSettings s)
  | none => ofSettings s

omit [Scalar α] in
@[simp] theorem Plan.extras_tuned (s : OptimizerSettings) (target : Option Target) :
    (tuned s target : Plan σ α).routineExtras = [] ∧
    (tuned s target : Plan σ α).programExtras = [] := by
  cases target with
  | none => exact ⟨rfl, rfl⟩
  | some t =>
    simp only [tuned, Option.map_some, Target.tuning, Target.adjust]
    split <;> exact ⟨rfl, rfl⟩

theorem Plan.safe_tuned {s : OptimizerSettings} {target : Option Target}
    (h : s.Packs target → Pack.Distinct S) :
    (tuned s target : Plan σ α).Safe S := by
  intro hlevel hwidth hpack
  cases target with
  | none => exact h ⟨hlevel, hpack, hwidth⟩
  | some t =>
    simp only [tuned, Option.map_some, Target.tuning, Target.adjust] at hlevel hwidth hpack
    by_cases ht : t.vectorWidth < 2
    · simp only [if_pos ht, Bool.false_eq_true] at hpack
    · simp only [if_neg ht] at hlevel hpack
      exact h ⟨hlevel, hpack, Nat.not_lt.mp ht⟩

namespace Optimizer

variable {p : Program α} {entry : String}

omit [Scalar α] in
theorem onProgram_succeeds {β : Type} {x : Optimizer σ α → Attempt (Program α × σ) β}
    {o : Optimizer σ α} {world : σ} {Q : β → Optimizer σ α × σ → Prop}
    (h : (x o).Succeeds (o.program, world) fun b t => Q b ({ o with program := t.1 }, t.2)) :
    (onProgram x).Succeeds (o, world) Q := .bind (succeeds_get (.on h))

/-- The optimizer holds a program with the answers of `p`, and routine passes to go on with. -/
structure Holds (S : Set α) (entry : String) (p : Program α) (o : Optimizer σ α) : Prop where
  becomes : p.Becomes S entry o.program
  routinePasses : o.routinePasses.Sound S

theorem optimizeRoutine_succeeds {o : Optimizer σ α} (h : o.Holds S entry p) {name : String}
    (hname : name ∈ o.program.routineNames) (world : σ) :
    (optimizeRoutine name).Succeeds (o, world) fun _ t =>
      t.1.Holds S entry p ∧ t.1.program.routineNames = o.program.routineNames := by
  refine onProgram_succeeds ?_
  cases hi : o.program.routineIndex? name with
  | none =>
    obtain ⟨r, hr, hn⟩ := List.mem_map.mp hname
    have hne := List.findIdx?_eq_none_iff.mp hi r hr
    simp [hn] at hne
  | some index =>
    refine (RoutineSchedule.runAt_succeeds h.routinePasses h.becomes index world).imp fun _ t ht =>
      ?_
    exact ⟨⟨ht.2, h.routinePasses⟩, congrArg Context.routines ht.1⟩

theorem optimizeRoutines_succeeds {o : Optimizer σ α} (h : o.Holds S entry p) {names : List String}
    (hnames : ∀ name ∈ names, name ∈ o.program.routineNames) (world : σ) :
    (names.mapM optimizeRoutine).Succeeds (o, world) fun _ t => t.1.Holds S entry p := by
  induction names generalizing o world with
  | nil => exact succeeds_pure h
  | cons name rest ih =>
    rw [List.mapM_cons]
    refine .bind ((optimizeRoutine_succeeds h (hnames name List.mem_cons_self) world).imp ?_)
    rintro _ ⟨o', world'⟩ ⟨h', hn⟩
    refine .bind ((ih h' (fun name hm => hn ▸ hnames name (List.mem_cons_of_mem _ hm)) world').imp
      fun _ _ ht => ?_)
    exact succeeds_pure ht

variable [LawfulScalar α] {settings : OptimizerSettings} {target : Option Target}

theorem configure_succeeds (hsettings : settings.validate = .ok ())
    (h : settings.Packs target → Pack.Distinct S) (p : Program α) (world : σ) :
    (configure p (target.map Target.tuning) settings).Succeeds world fun o _ =>
      o.program = p ∧ o.routinePasses.Sound S ∧
      o.programPasses = (Plan.tuned settings target).programSchedule := by
  have hsound : (Plan.tuned settings target : Plan σ α).routineSchedule.Sound S :=
    Plan.sound_routineSchedule (Plan.safe_tuned h) (by simp)
  refine .bind (succeeds_ofExcept hsettings ?_)
  refine .bind ((RoutineSchedule.startAll_succeeds hsound p [] world).imp fun _ _ _ => ?_)
  exact succeeds_pure ⟨rfl, hsound, rfl⟩

theorem optimizeProgram_succeeds (h : settings.Packs target → Pack.Distinct S)
    (hp : p.Ready S entry) {o : Optimizer σ α} (ho : o.program = p) (hr : o.routinePasses.Sound S)
    (hs : o.programPasses = (Plan.tuned settings target).programSchedule) (world : σ) :
    optimizeProgram.Succeeds (o, world) fun _ t => t.1.Holds S entry p := by
  have hrun := Plan.programSchedule_succeeds (Plan.safe_tuned (σ := σ) h) hp (by simp) (by simp)
    world
  refine onProgram_succeeds ?_
  rw [ho, hs]
  exact hrun.imp fun _ t ht => ⟨ht, hr⟩

omit [LawfulScalar α] in
theorem close_succeeds {o : Optimizer σ α} (h : o.routinePasses.Sound S) (world : σ) :
    close.Succeeds (o, world) fun _ t => t.1.program = o.program := by
  refine .bind (succeeds_get ?_)
  cases hc : o.isClosed with
  | true =>
    simp only [hc, if_true]
    exact succeeds_pure rfl
  | false =>
    simp only [hc, Bool.false_eq_true, if_false]
    refine .bind (succeeds_set ?_)
    exact .onSnd ((RoutineSchedule.finishAll_succeeds h world).imp fun _ _ _ => rfl)

theorem optimize_succeeds (hsettings : settings.validate = .ok ())
    (h : settings.Packs target → Pack.Distinct S) (hp : p.Ready S entry) (world : σ) :
    (optimize p (target.map Target.tuning) settings).Succeeds world fun q _ =>
      p.Becomes S entry q := by
  refine .bind ((configure_succeeds hsettings h p world).imp ?_)
  rintro o world₁ ⟨ho, hr, hs⟩
  refine .bind (.within (.bind (.outcome ((optimizeProgram_succeeds h hp ho hr hs world₁).imp ?_))))
  rintro changed ⟨o₂, world₂⟩ h₂
  refine .bind (.outcome ((close_succeeds h₂.routinePasses world₂).imp ?_))
  rintro ⟨⟩ ⟨o₃, world₃⟩ h₃
  refine .bind (succeeds_ofExcept rfl ?_)
  refine succeeds_ofExcept rfl ?_
  refine .bind (succeeds_ofExcept rfl ?_)
  exact succeeds_pure (h₃ ▸ h₂.becomes)

end Optimizer
end StreamStats
