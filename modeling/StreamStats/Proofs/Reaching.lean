import StreamStats.Proofs.Sweeping
import StreamStats.Transform.Reachable

/-! Removing routines that are not reached changes no answer. Every round of the search reaches a
routine or ends it, so there are rounds enough; and what is reached calls only what is reached, so
that calls do what they did. -/

namespace StreamStats

open Exec

variable {α : Type}

section Callees

mutual

theorem Inst.exec_congr [Scalar α] {call call' : String → Exec α Unit} {name : String} :
    ∀ {inst : Inst α}, (∀ callee ∈ inst.callees, call callee = call' callee) → ∀ count : Nat,
      Inst.exec call name count inst = Inst.exec call' name count inst
  | .load _ _ _, _, _ => by
    funext frame
    simp only [Inst.exec]
  | .store _ _ _, _, _ => by
    funext frame
    simp only [Inst.exec]
  | .binary _ _ _ _, _, _ => by
    funext frame
    simp only [Inst.exec]
  | .call callee, h, _ => by
    funext frame
    simp only [Inst.exec, h callee (by simp [Inst.callees])]
  | .loop _ _ _ _, h, _ => by
    funext frame
    simp only [Inst.exec, Block.exec_congr h]

theorem Block.exec_congr [Scalar α] {call call' : String → Exec α Unit} {name : String} :
    ∀ {body : List (Inst α)}, (∀ callee ∈ Block.callees body, call callee = call' callee) →
    ∀ count : Nat, Block.exec call name count body = Block.exec call' name count body
  | [], _, _ => by
    funext frame
    simp only [Block.exec]
  | inst :: rest, h, count => by
    funext frame
    simp only [Block.exec, Inst.exec_congr (fun c hc => h c (List.mem_append_left _ hc)) count,
      Block.exec_congr (fun c hc => h c (List.mem_append_right _ hc)) count]

end

@[simp] theorem Block.mem_callees {body : Block α} {callee : String} :
    callee ∈ Block.callees body ↔ ∃ inst ∈ body, callee ∈ inst.callees := by
  induction body with
  | nil => simp [Block.callees]
  | cons inst rest ih => simp [Block.callees, ih]

variable [Scalar α] {context context' : Context α} {S : Set α} {info : Reg → Info α}

namespace Inst

theorem Plain.callees {shape : Option Check.Shape} {inst : Inst α}
    (h : inst.Plain context S info shape) :
    ∀ callee ∈ inst.callees, callee ∈ context.routines := by
  cases inst with
  | call callee => simpa [Inst.callees] using (show callee ∈ context.routines from h)
  | loop _ _ _ _ => exact h.elim
  | _ => simp [Inst.callees]

theorem Tame.callees {inst : Inst α} (h : inst.Tame context S info) :
    ∀ callee ∈ inst.callees, callee ∈ context.routines := by
  cases inst with
  | loop trips step parallel body =>
    obtain ⟨-, inner, hplain⟩ := h
    intro callee hc
    obtain ⟨inst, hi, hc⟩ := Block.mem_callees.mp hc
    exact (hplain inst hi).callees callee hc
  | call callee => simpa [Inst.callees] using (show callee ∈ context.routines from h)
  | _ => simp [Inst.callees]

theorem Plain.of_callees (hs : context'.segments = context.segments) {shape : Option Check.Shape}
    {inst : Inst α} (h : inst.Plain context S info shape)
    (hc : ∀ callee ∈ inst.callees, callee ∈ context'.routines) :
    inst.Plain context' S info shape := by
  cases inst with
  | call callee => exact hc callee (by simp [Inst.callees])
  | loop _ _ _ _ => exact h.elim
  | _ => simpa only [Plain, hs] using h

theorem Tame.of_callees (hs : context'.segments = context.segments) {inst : Inst α}
    (h : inst.Tame context S info) (hc : ∀ callee ∈ inst.callees, callee ∈ context'.routines) :
    inst.Tame context' S info := by
  cases inst with
  | loop trips step parallel body =>
    obtain ⟨hstep, inner, hplain⟩ := h
    refine ⟨hstep, inner, fun inst hi => (hplain inst hi).of_callees hs fun callee hcallee => ?_⟩
    exact hc callee (Block.mem_callees.mpr ⟨inst, hi, hcallee⟩)
  | call callee => exact hc callee (by simp [Inst.callees])
  | load dst src n =>
    exact (show Plain context S info none (.load dst src n) from h).of_callees hs hc
  | store dst x n => exact (show Plain context S info none (.store dst x n) from h).of_callees hs hc
  | binary dst op x y =>
    exact (show Plain context S info none (.binary dst op x y) from h).of_callees hs hc

end Inst

theorem Routine.Tame.callees {r : Routine α} (h : r.Tame context S) :
    ∀ callee ∈ r.callees, callee ∈ context.routines := by
  obtain ⟨info, hi⟩ := h.tame
  intro callee hc
  obtain ⟨inst, hmem, hc⟩ := Block.mem_callees.mp hc
  exact (hi inst hmem).callees callee hc

theorem Routine.Tame.of_callees (hs : context'.segments = context.segments) {r : Routine α}
    (h : r.Tame context S) (hc : ∀ callee ∈ r.callees, callee ∈ context'.routines) :
    r.Tame context' S := by
  obtain ⟨info, hi⟩ := h.tame
  refine ⟨⟨info, fun inst hmem => (hi inst hmem).of_callees hs fun callee hcallee => ?_⟩, h.reads,
    h.nodup⟩
  exact hc callee (Block.mem_callees.mpr ⟨inst, hmem, hcallee⟩)

end Callees

namespace Program

variable {p : Program α}

@[simp] theorem mem_newlyReached {reached : List String} {callee : String} :
    callee ∈ p.newlyReached reached ↔ (∃ name ∈ reached, callee ∈ p.calledFrom name) ∧
    callee ∉ reached := by
  simp [newlyReached, List.mem_eraseDups]

@[simp] theorem subset_close (rounds : Nat) : ∀ reached, reached ⊆ p.close rounds reached := by
  induction rounds with
  | zero => exact fun _ _ h => h
  | succ rounds ih =>
    intro reached name hname
    simp only [close]
    split
    · exact hname
    · exact ih _ (List.mem_append_left _ hname)

def ClosedUnderCalls (p : Program α) (reached : List String) : Prop :=
  ∀ name ∈ reached, ∀ callee ∈ p.calledFrom name, callee ∈ reached

@[simp] theorem newlyReached_eq_nil_iff {reached : List String} :
    p.newlyReached reached = [] ↔ p.ClosedUnderCalls reached := by
  rw [List.eq_nil_iff_forall_not_mem]
  simp only [mem_newlyReached, ClosedUnderCalls]
  constructor
  · intro h name hname callee hcallee
    by_contra hnot
    exact h callee ⟨⟨name, hname, hcallee⟩, hnot⟩
  · rintro h callee ⟨⟨name, hname, hcallee⟩, hnot⟩
    exact hnot (h name hname callee hcallee)

@[simp] theorem close_of_closed {reached : List String} (h : p.ClosedUnderCalls reached)
    (rounds : Nat) : p.close rounds reached = reached := by
  cases rounds with
  | zero => rfl
  | succ rounds => simp only [close, newlyReached_eq_nil_iff.mpr h]

@[simp] theorem calledFrom_eq_nil {name : String} (h : name ∉ p.routineNames) :
    p.calledFrom name = [] := by
  have hnone : p.routine? name = none := by
    refine List.find?_eq_none.mpr fun r hr hname => h ?_
    exact List.mem_map.mpr ⟨r, hr, beq_iff_eq.mp hname⟩
  rw [calledFrom, hnone, Option.map_none, Option.getD_none]

/-- Names without a routine call nothing, so a round that reaches no routine is the last but one. -/
theorem closed_append {reached : List String}
    (h : ∀ callee ∈ p.newlyReached reached, callee ∉ p.routineNames) :
    p.ClosedUnderCalls (reached ++ p.newlyReached reached) := by
  intro name hname callee hcallee
  rcases List.mem_append.mp hname with hname | hname
  · by_cases hmem : callee ∈ reached
    · exact List.mem_append_left _ hmem
    · exact List.mem_append_right _ (mem_newlyReached.mpr ⟨⟨name, hname, hcallee⟩, hmem⟩)
  · rw [calledFrom_eq_nil (h name hname)] at hcallee
    cases hcallee

/-- Given more rounds than there are routines to reach, the search ends with what is called from
what it reached. -/
theorem close_closed (rounds : Nat) :
    ∀ reached : List String, (p.routineNames.filter fun name => !reached.contains name).length <
      rounds → p.ClosedUnderCalls (p.close rounds reached) := by
  induction rounds with
  | zero => exact fun _ h => absurd h (Nat.not_lt_zero _)
  | succ rounds ih =>
    intro reached hlt
    simp only [close]
    split
    · rename_i hnew
      exact newlyReached_eq_nil_iff.mp hnew
    · by_cases hroutine : ∃ callee ∈ p.newlyReached reached, callee ∈ p.routineNames
      · refine ih _ (Nat.lt_of_lt_of_le ?_ (Nat.lt_succ_iff.mp hlt))
        -- one of the routines that are new was still to be reached
        obtain ⟨callee, hcallee, hname⟩ := hroutine
        have hnot := (mem_newlyReached.mp hcallee).2
        have hfilter : (p.routineNames.filter fun name =>
          !(reached ++ p.newlyReached reached).contains name) =
            (p.routineNames.filter fun name => !reached.contains name).filter fun name =>
              !(p.newlyReached reached).contains name := by
          rw [List.filter_filter]
          refine List.filter_congr fun name _ => ?_
          simp [Bool.and_comm]
        rw [hfilter, List.length_filter_lt_length_iff_exists]
        exact ⟨callee, List.mem_filter.mpr ⟨hname, by simpa using hnot⟩, by simpa using hcallee⟩
      · have hclosed := closed_append fun callee hcallee hname => hroutine ⟨callee, hcallee, hname⟩
        rwa [close_of_closed hclosed]

@[simp] theorem reachable_closed (p : Program α) : p.ClosedUnderCalls p.reachable := by
  refine close_closed _ _ (Nat.lt_succ_of_le ((List.length_filter_le _ _).trans ?_))
  simp [routineNames]

@[simp] theorem routine?_dropUnreachable {name : String} (hname : name ∈ p.reachable) :
    p.dropUnreachable.routine? name = p.routine? name := by
  simp only [dropUnreachable, routine?, List.find?_filter]
  congr 1
  funext r
  by_cases hr : r.name = name
  · simp [hr, hname]
  · simp [hr]

@[simp] theorem mem_routineNames_dropUnreachable {name : String} :
    name ∈ p.dropUnreachable.routineNames ↔ name ∈ p.routineNames ∧ name ∈ p.reachable := by
  simp only [routineNames, dropUnreachable, List.mem_map, List.mem_filter, List.contains_eq_mem,
    decide_eq_true_eq]
  constructor
  · rintro ⟨r, ⟨hr, hreach⟩, rfl⟩
    exact ⟨⟨r, hr, rfl⟩, hreach⟩
  · rintro ⟨⟨r, hr, rfl⟩, hreach⟩
    exact ⟨r, ⟨hr, hreach⟩, rfl⟩

theorem mem_names_of_called (h : ∀ r ∈ p.routines, ∀ callee ∈ r.callees, callee ∈ p.routineNames)
    (hn : p.routineNames.Nodup) {r : Routine α} (hr : r ∈ p.dropUnreachable.routines) :
    ∀ callee ∈ r.callees, callee ∈ p.dropUnreachable.routineNames := by
  obtain ⟨hr, hreach⟩ := List.mem_filter.mp hr
  have hreach : r.name ∈ p.reachable := by simpa using hreach
  exact fun callee hc => mem_routineNames_dropUnreachable.mpr ⟨h r hr callee hc,
    p.reachable_closed r.name hreach callee
    (by simpa [calledFrom, routine?_eq_some hn hr] using hc)⟩

variable [Scalar α] {S : Set α}

/-- Calls of what is reached do what they did. -/
theorem call_dropUnreachable (p : Program α) (depth : Nat) : ∀ name ∈ p.reachable,
    p.dropUnreachable.call depth name = p.call depth name := by
  induction depth with
  | zero => exact fun _ _ => rfl
  | succ depth ih =>
    intro name hname
    simp only [call, routine?_dropUnreachable hname]
    cases hr : p.routine? name with
    | none => rfl
    | some r =>
      have hcallees : ∀ callee ∈ Block.callees r.body, p.dropUnreachable.call depth callee =
          p.call depth callee :=
        fun callee hc => ih callee (p.reachable_closed name hname callee (by
          simpa [calledFrom, hr, Routine.callees] using hc))
      simp only [Block.exec_congr hcallees]

/-- Removing routines that are not reached keeps programs tame and changes no answer to a call from
outside. -/
theorem dropUnreachable_tame (h : p.Tame S) (hn : p.routineNames.Nodup) {entry : String}
    (he : entry ∈ p.externalNames) :
    p.dropUnreachable.Tame S ∧ p.dropUnreachable.routineNames.Nodup ∧
    p.Answers entry p.dropUnreachable := by
  have hentry : entry ∈ p.reachable := subset_close _ _ he
  refine ⟨fun r hr => ?_, (List.filter_sublist.map _).nodup hn, answers_of_same rfl fun m n hmn =>
    ?_⟩
  · have hs : p.dropUnreachable.context.segments = p.context.segments := rfl
    exact (h r (List.mem_of_mem_filter hr)).of_callees hs
      (mem_names_of_called (fun r hr => (h r hr).callees) hn hr)
  · rw [call_dropUnreachable p callLimit entry hentry]
    have hself : List.Forall₂ (Routine.Imitates (Memory.Same p.segments)) p.routines p.routines :=
      List.forall₂_same.mpr fun r hr => (h r hr).imitates_self
    exact callsFollow hself callLimit entry m n hmn

end Program
end StreamStats
