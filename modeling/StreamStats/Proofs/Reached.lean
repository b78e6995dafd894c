import Mathlib.Algebra.Order.BigOperators.Group.List
import Mathlib.Logic.Function.Iterate
import StreamStats.Pass
import StreamStats.Proofs.Reaching

/-! Removing routines keeps those that calls from outside come to. A search that takes up one name
after another ends, whatever calls what, and has found just those; and calls from outside do what
they did, also where they fail. -/

namespace StreamStats

variable {α : Type}

/-- The instruction calls the routine, itself or in a loop. -/
inductive Inst.Calls (callee : String) : Inst α → Prop
  | call : Calls callee (.call callee)
  | loop {trips step : Nat} {parallel : Bool} {body : Block α} {inst : Inst α} :
      inst ∈ body → Calls callee inst → Calls callee (.loop trips step parallel body)

mutual

theorem Inst.calls_of_mem_callees {callee : String} :
    ∀ {inst : Inst α}, callee ∈ inst.callees → inst.Calls callee
  | .call name, h => by
    rw [List.mem_singleton.mp h]
    exact .call
  | .loop trips step parallel body, h =>
    have ⟨_, hmem, hcalls⟩ := Block.calls_of_mem_callees h
    .loop hmem hcalls
  | .load _ _ _, h | .store _ _ _, h | .binary _ _ _ _, h => by simp [Inst.callees] at h

theorem Block.calls_of_mem_callees {callee : String} :
    ∀ {body : List (Inst α)}, callee ∈ Block.callees body → ∃ inst ∈ body, inst.Calls callee
  | [], h => by simp [Block.callees] at h
  | inst :: rest, h => by
    rcases List.mem_append.mp h with h | h
    · exact ⟨inst, List.mem_cons_self, Inst.calls_of_mem_callees h⟩
    · obtain ⟨inst', hmem, hcalls⟩ := Block.calls_of_mem_callees h
      exact ⟨inst', List.mem_cons_of_mem _ hmem, hcalls⟩

end

theorem Inst.Calls.mem_callees {callee : String} {inst : Inst α} (h : inst.Calls callee) :
    callee ∈ inst.callees := by
  induction h with
  | call => simp [callees]
  | loop hmem _ ih => exact Block.mem_callees.mpr ⟨_, hmem, ih⟩

@[simp] theorem Routine.mem_callees_iff {callee : String} {r : Routine α} :
    callee ∈ r.callees ↔ ∃ inst ∈ r.body, inst.Calls callee := by
  constructor
  · exact Block.calls_of_mem_callees
  · rintro ⟨inst, hmem, hcalls⟩
    exact Block.mem_callees.mpr ⟨inst, hmem, hcalls.mem_callees⟩

namespace Program

/-- Calls from outside come to the name: some external routine has it, or the first routine of
another such name calls it. -/
inductive Reached (p : Program α) : String → Prop
  | external {r : Routine α} : r ∈ p.routines → r.linkage = .external → Reached p r.name
  | called {name callee : String} {r : Routine α} {inst : Inst α} :
      Reached p name → p.routine? name = some r → inst ∈ r.body → inst.Calls callee →
      Reached p callee

variable {p : Program α}

@[simp] theorem mem_calledFrom {name callee : String} : callee ∈ p.calledFrom name ↔
    ∃ r, p.routine? name = some r ∧ ∃ inst ∈ r.body, inst.Calls callee := by
  rw [calledFrom]
  cases p.routine? name with
  | none => simp
  | some r => simp

theorem Reached.step {name callee : String} (h : p.Reached name)
    (hcallee : callee ∈ p.calledFrom name) :
    p.Reached callee := by
  obtain ⟨r, hr, inst, hmem, hcalls⟩ := mem_calledFrom.mp hcallee
  exact h.called hr hmem hcalls

@[simp] theorem mem_externalNames {name : String} :
    name ∈ p.externalNames ↔ ∃ r ∈ p.routines, r.linkage = .external ∧ r.name = name := by
  simp [externalNames, and_assoc]

theorem reached_of_external {name : String} (h : name ∈ p.externalNames) : p.Reached name := by
  obtain ⟨r, hr, hlinkage, rfl⟩ := mem_externalNames.mp h
  exact .external hr hlinkage

/-- What holds of external names and of what is called from a name where it holds, holds of all that
is reached. -/
theorem Reached.mem_of_closed {found : List String} (hclosed : p.ClosedUnderCalls found)
    (hexternal : p.externalNames ⊆ found) {name : String} (h : p.Reached name) : name ∈ found := by
  induction h with
  | external hr hlinkage => exact hexternal (mem_externalNames.mpr ⟨_, hr, hlinkage, rfl⟩)
  | called _ hr hmem hcalls ih => exact hclosed _ ih _ (mem_calledFrom.mpr ⟨_, hr, _, hmem, hcalls⟩)

theorem reached_of_mem_close (rounds : Nat) :
    ∀ {reached : List String}, (∀ name ∈ reached, p.Reached name) → ∀ name ∈ p.close rounds reached,
    p.Reached name := by
  induction rounds with
  | zero => exact fun h => h
  | succ rounds ih =>
    intro reached h
    simp only [close]
    split
    · exact h
    · refine ih fun name hname => ?_
      rcases List.mem_append.mp hname with hname | hname
      · exact h name hname
      · obtain ⟨⟨caller, hcaller, hcalled⟩, -⟩ := mem_newlyReached.mp hname
        exact (h caller hcaller).step hcalled

theorem mem_reachable_iff {name : String} : name ∈ p.reachable ↔ p.Reached name := by
  constructor
  · exact reached_of_mem_close _ (fun _ => reached_of_external) name
  · exact Reached.mem_of_closed p.reachable_closed (subset_close _ _)

instance : DecidablePred p.Reached := fun _ => decidable_of_iff _ mem_reachable_iff

theorem dropUnreachable_eq (p : Program α) :
    p.dropUnreachable = { p with routines := p.routines.filter (p.Reached ·.name) } := by
  simp only [dropUnreachable, List.contains_eq_mem, mem_reachable_iff]

/-- Names found so far, and names that wait to be taken up, the next one first. -/
structure Search where
  found : List String
  waiting : List String

namespace Search

def start (p : Program α) : Search := ⟨[], p.externalNames.reverse⟩

/-- A name found before is passed over; of any other the calls are to be taken up next, the last one
first. -/
def advance (p : Program α) : Search → Search
  | ⟨found, []⟩ => ⟨found, []⟩
  | ⟨found, name :: waiting⟩ =>
    if name ∈ found then ⟨found, waiting⟩
      else ⟨name :: found, (p.calledFrom name).reverse ++ waiting⟩

/-- The calls of the routines whose names are still to be found, with what waits. -/
def remaining (p : Program α) (s : Search) : Nat :=
  (p.routines.map fun r => if r.name ∈ s.found then 0 else (p.calledFrom r.name).length).sum +
    s.waiting.length

variable {s : Search}

theorem calls_cons_le {found : List String} {name : String} (hname : name ∉ found) :
    (p.calledFrom name).length +
        (p.routines.map fun r => if r.name ∈ name :: found then 0
          else (p.calledFrom r.name).length).sum ≤
      (p.routines.map fun r => if r.name ∈ found then 0 else (p.calledFrom r.name).length).sum := by
  have hle : ∀ r : Routine α, (if r.name ∈ name :: found then 0 else (p.calledFrom r.name).length) ≤
      if r.name ∈ found then 0 else (p.calledFrom r.name).length := fun r => by
    by_cases hr : r.name ∈ found <;> by_cases hr' : r.name = name <;> simp [hr, hr']
  by_cases hroutine : name ∈ p.routineNames
  · obtain ⟨r, hr, rfl⟩ := List.mem_map.mp hroutine
    obtain ⟨before, behind, hsplit⟩ := List.append_of_mem hr
    have hbefore := List.sum_le_sum fun r (_ : r ∈ before) => hle r
    have hbehind := List.sum_le_sum fun r (_ : r ∈ behind) => hle r
    rw [hsplit]
    simp only [List.map_append, List.map_cons, List.sum_append, List.sum_cons,
      if_pos List.mem_cons_self, if_neg hname]
    omega
  · rw [calledFrom_eq_nil hroutine, List.length_nil, Nat.zero_add]
    exact List.sum_le_sum fun r _ => hle r

theorem remaining_advance (h : s.waiting ≠ []) : (s.advance p).remaining p < s.remaining p := by
  obtain ⟨found, waiting⟩ := s
  cases waiting with
  | nil => exact absurd rfl h
  | cons name waiting =>
    simp only [advance]
    split
    · simp [remaining]
    · rename_i hname
      have hcalls := calls_cons_le (p := p) hname
      simp only [remaining, List.length_append, List.length_reverse, List.length_cons] at hcalls ⊢
      omega

theorem exists_waiting_eq_nil (p : Program α) (s : Search) :
    ∃ n ≤ s.remaining p, ((advance p)^[n] s).waiting = [] := by
  induction hsize : s.remaining p using Nat.strongRecOn generalizing s with
  | ind size ih =>
    subst hsize
    by_cases hwaiting : s.waiting = []
    · exact ⟨0, Nat.zero_le _, hwaiting⟩
    · have hlt := remaining_advance (p := p) hwaiting
      obtain ⟨n, hn, hend⟩ := ih _ hlt _ rfl
      exact ⟨n + 1, by omega, hend⟩

/-- Only what is reached has been found or waits, and nothing that is called from what has been
found is missing. -/
structure Explores (p : Program α) (s : Search) : Prop where
  reached : ∀ name ∈ s.found ++ s.waiting, p.Reached name
  external : p.externalNames ⊆ s.found ++ s.waiting
  called : ∀ name ∈ s.found, p.calledFrom name ⊆ s.found ++ s.waiting

@[simp] theorem explores_start (p : Program α) : (start p).Explores p := by
  refine ⟨fun name hname => reached_of_external (by simpa [start] using hname), fun name hname =>
    ?_, ?_⟩ <;>
    simp_all [start]

theorem Explores.advance (h : s.Explores p) : (s.advance p).Explores p := by
  obtain ⟨found, waiting⟩ := s
  obtain ⟨hreached, hexternal, hcalled⟩ := h
  cases waiting with
  | nil => exact ⟨hreached, hexternal, hcalled⟩
  | cons name waiting =>
    simp only [Search.advance]
    split
    · rename_i hname
      -- the name stays among those found
      have hsame : ∀ other, other ∈ found ++ name :: waiting ↔ other ∈ found ++ waiting :=
          fun other => by
        simp only [List.mem_append, List.mem_cons]
        constructor
        · rintro (h | rfl | h)
          exacts [.inl h, .inl hname, .inr h]
        · rintro (h | h)
          exacts [.inl h, .inr (.inr h)]
      exact ⟨fun other hother => hreached other ((hsame other).mpr hother),
        fun other hother => (hsame other).mp (hexternal hother),
        fun caller hcaller other hother => (hsame other).mp (hcalled caller hcaller hother)⟩
    · have hmore : found ++ name :: waiting ⊆ name :: found ++
        ((p.calledFrom name).reverse ++ waiting) := fun other hother => by
          simp only [List.mem_append, List.mem_cons] at hother ⊢
          tauto
      refine ⟨fun other hother => ?_, fun other hother => hmore (hexternal hother),
        fun caller hcaller other hother => ?_⟩
      · have hname : p.Reached name := hreached name (by simp)
        simp only [List.cons_append, List.mem_cons, List.mem_append, List.mem_reverse] at hother
        rcases hother with rfl | hother | hother | hother
        · exact hname
        · exact hreached other (List.mem_append_left _ hother)
        · exact hname.step hother
        · exact hreached other (List.mem_append_right _ (List.mem_cons_of_mem _ hother))
      · rcases List.mem_cons.mp hcaller with rfl | hcaller
        · simp [hother]
        · exact hmore (hcalled caller hcaller hother)

theorem Explores.iterate (h : s.Explores p) (n : Nat) : ((Search.advance p)^[n] s).Explores p := by
  induction n generalizing s with
  | zero => exact h
  | succ n ih => exact ih h.advance

theorem Explores.mem_found_iff (h : s.Explores p) (hend : s.waiting = []) {name : String} :
    name ∈ s.found ↔ p.Reached name := by
  have hall : s.found ++ s.waiting = s.found := by rw [hend, List.append_nil]
  obtain ⟨hreached, hexternal, hcalled⟩ := h
  rw [hall] at hreached hexternal
  refine ⟨hreached name, Reached.mem_of_closed (fun caller hcaller callee hcallee => ?_) hexternal⟩
  exact hall ▸ hcalled caller hcaller hcallee

end Search

@[simp] theorem run_dropUnreachable {σ : Type} (p : Program α) (s : σ) :
    (ProgramPass.dropUnreachable (α := α)).run.run (p, s) =
      (.ok (decide (∃ r ∈ p.routines, ¬p.Reached r.name)), p.dropUnreachable, s) := by
  have hchanged : (p.dropUnreachable.routines.length != p.routines.length) =
      decide (∃ r ∈ p.routines, ¬p.Reached r.name) := by
    rw [dropUnreachable_eq, Bool.eq_iff_iff, bne_iff_ne, decide_eq_true_iff, ne_eq,
      List.length_filter_eq_length_iff]
    simp
  rw [← hchanged]
  rfl

variable [Scalar α]

theorem machineCall_dropUnreachable (p : Program α) {name : String} (h : p.Reached name)
    (memory : Memory α) (runs : Nat) :
    (Machine.call ⟨p.dropUnreachable, memory, runs⟩ name).1 =
      (Machine.call ⟨p, memory, runs⟩ name).1 ∧
      (Machine.call ⟨p.dropUnreachable, memory, runs⟩ name).2.memory =
        (Machine.call ⟨p, memory, runs⟩ name).2.memory := by
  have hcall : p.dropUnreachable.call callLimit name = p.call callLimit name :=
    call_dropUnreachable p callLimit name (mem_reachable_iff.mpr h)
  simp only [Machine.call, hcall]
  cases p.call callLimit name memory <;> exact ⟨rfl, rfl⟩

/-- The search for what calls from outside come to ends and finds all of it and nothing else. What
has those names is kept, in its order, and the pass tells whether anything was not. Every call from
outside does what it did. -/
theorem dropUnreachable_exact (p : Program α) :
    (∃ n ≤ (Search.start p).remaining p, ((Search.advance p)^[n] (.start p)).waiting = [] ∧
      ∀ name, name ∈ ((Search.advance p)^[n] (.start p)).found ↔ p.Reached name) ∧
    (∀ (σ : Type) (s : σ), (ProgramPass.dropUnreachable (α := α)).run.run (p, s) =
      (.ok (decide (∃ r ∈ p.routines, ¬p.Reached r.name)), p.dropUnreachable, s)) ∧
    p.dropUnreachable = { p with routines := p.routines.filter (p.Reached ·.name) } ∧
    ∀ r ∈ p.routines, r.linkage = .external → ∀ (memory : Memory α) (runs : Nat),
      (Machine.call ⟨p.dropUnreachable, memory, runs⟩ r.name).1 =
        (Machine.call ⟨p, memory, runs⟩ r.name).1 ∧
      (Machine.call ⟨p.dropUnreachable, memory, runs⟩ r.name).2.memory =
        (Machine.call ⟨p, memory, runs⟩ r.name).2.memory := by
  obtain ⟨n, hn, hend⟩ := Search.exists_waiting_eq_nil p (.start p)
  have hexplores := (Search.explores_start p).iterate n
  exact ⟨⟨n, hn, hend, fun name => hexplores.mem_found_iff hend⟩, fun _ => run_dropUnreachable p,
    dropUnreachable_eq p, fun r hr hlinkage =>
      machineCall_dropUnreachable p (.external hr hlinkage)⟩

/-- Routines that call each other in a circle, in a loop too, two of one name of which only the
second is external, and a call of a routine that is not there. -/
def circling : Program Float where
  name := "circling"
  segments := #[.zeros "state" .state 1]
  routines := [
    .ofBody "twin" .internal [.loop 2 1 false [.call "back"]],
    .ofBody "orphan" .internal [.call "twin"],
    .ofBody "twin" .external [.call "orphan"],
    .ofBody "back" .internal [.store (.fixed 0 0) (.imm 1) 1, .call "twin"],
    .ofBody "lost" .internal [.call "lost"],
    .ofBody "main" .external [.call "absent", .call "back"]]

/-- The circle of the first twin is kept, and so is its failure; what only the second one calls is
not. -/
theorem dropUnreachable_exact_circling :
    (∃ n ≤ 9, ((Search.advance circling)^[n] (.start circling)).waiting = []) ∧
    ((ProgramPass.dropUnreachable (α := Float)).run.run (circling, ())).1 = .ok true ∧
    circling.dropUnreachable.routineNames = ["twin", "twin", "back", "main"] ∧
    (Machine.call ⟨circling.dropUnreachable, #[#[0]], 0⟩ "twin").1 = .error .callDepth ∧
    (Machine.call ⟨circling.dropUnreachable, #[#[0]], 0⟩ "twin").2.memory = #[#[1]] := by
  obtain ⟨⟨n, hn, hend, -⟩, hrun, -, hcalls⟩ := dropUnreachable_exact circling
  have hmem : (.ofBody "twin" .external [.call "orphan"] : Routine Float) ∈ circling.routines :=
    List.mem_of_getElem? (i := 2) rfl
  have htwin := hcalls _ hmem rfl #[#[0]] 0
  have hname : (Routine.ofBody "twin" .external [.call "orphan"] : Routine Float).name = "twin" :=
    rfl
  rw [hname] at htwin
  refine ⟨⟨n, hn, hend⟩, ?_,
    by decide +kernel, htwin.1.trans (by decide +kernel), htwin.2.trans (by decide +kernel)⟩
  rw [hrun]
  decide +kernel

end Program
end StreamStats
