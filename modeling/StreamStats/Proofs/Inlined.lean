import StreamStats.Proofs.Grafting
import StreamStats.Proofs.Inlining
import StreamStats.Proofs.Rewriting

/-! Inlining keeps checked programs checked, and every call that ends well. The body put in the
place of a call runs in the caller's frame, with calls of its own one level less deep; so the proof
goes by the depth of calls, which may be mutual. -/

namespace StreamStats

open Exec Check

variable {α : Type}

/-- Only a run that ends well is to be matched, from whatever memory. -/
def Likeness.ending : Likeness α := ⟨False, fun _ _ => True, fun _ => True, fun _ => trivial⟩

theorem Exec.Mirrors.ends {β γ : Type} {P : β → γ → Prop} {b : β} {m : Memory α}
    {r : EStateM.Result Fault (Memory α) β} {r' : EStateM.Result Fault (Memory α) γ}
    (h : Mirrors .ending P r r') (hr : r = .ok b m) : ∃ c, r' = .ok c m := by
  subst hr
  cases h with
  | ok value _ => exact ⟨_, rfl⟩

theorem Exec.Mirrors.of_error {β γ : Type} {P : β → γ → Prop} {e : Fault} {m : Memory α}
    (r : EStateM.Result Fault (Memory α) γ) : Mirrors .ending P (.error e m) r :=
  .lax fun h => h

@[simp] theorem Inst.keeps_ending (shape : Option Shape) (inst : Inst α) :
    inst.Keeps (Likeness.ending : Likeness α).memories shape := by
  cases inst with
  | store _ _ _ => exact fun _ _ _ _ => trivial
  | _ => trivial

variable [Scalar α] {p : Program α} {limit : Option Nat}

/-- Calls do alike, and so does the body of a routine, under registers moved up, where the routine
is called. -/
structure Bodies (p : Program α) (call call' : String → Exec α Unit) : Prop where
  calls : CallsMirror .ending call call'
  body : ∀ callee r, p.routine? callee = some r →
    ∀ (bound : Nat) (name : String) (g : Frame α) (m : Memory α),
      Mirrors .ending (fun _ _ => True) (call callee m)
        (Block.exec call' name 0 (Block.rename (· + bound) r.body) g m)

namespace Routine.Accepted

variable {context : Context α} {r : Routine α}

theorem mirrors_rename (h : r.Accepted context) {call call' : String → Exec α Unit}
    (hcall : CallsMirror .ending call call') {φ : Reg → Reg} (hφ : φ.Injective) (name : String)
    (g : Frame α) (m : Memory α) :
    Exec.Mirrors .ending (fun _ _ => True) (Block.exec call r.name 0 r.body RegMap.empty m)
      (Block.exec call' name 0 (Block.rename φ r.body) g m) := by
  obtain ⟨lanes, hl⟩ := h.admitted
  exact (Block.mirrors_rename hcall (fun _ => trivial) (hl.imp fun shape inst _ =>
    inst.keeps_ending shape) h.reads
    (fun _ _ _ _ he => hφ he) (by simp [Frame.Renames]) trivial).imp fun _ _ _ => trivial

theorem grafts_call {r : Routine α} (h : r.Accepted p.context) (hc : r.Counted) {callee : String}
    (hr : p.routine? callee = some r) {lanes : Reg → Nat} {V : Set Reg} {bound : Nat} :
    Grafts .ending (Bodies p) p.context lanes V bound (bound + r.nextReg) [.call callee]
      (Block.rename (· + bound) r.body) := by
  obtain ⟨⟨inner, hinner⟩, hreads, hnodup⟩ := h
  let both : Reg → Nat := fun t => if (t : Nat) < bound then lanes t else inner (t - bound)
  have hboth : ∀ t : Reg, both (t + bound) = inner t := fun t => by
    have hge : ¬t + bound < bound := Nat.not_lt.mpr (Nat.le_add_left _ _)
    rw [show both (t + bound) = _ from if_neg hge, Nat.add_sub_cancel]
  refine ⟨Nat.le_add_right _ _,
    ⟨both, fun t ht _ => if_pos ht, hinner.rename (fun _ _ hl hi => hi.rename hl) fun t _ =>
      hboth t⟩, ?_, fun t ht => ?_, ?_, ?_⟩
  · exact (Block.Scoped.rename (W := ∅) _ hreads (by simp)).mono (fun h => h) (Set.empty_subset _)
  · rw [Block.targets_rename] at ht
    obtain ⟨t', ht', rfl⟩ := List.mem_map.mp ht
    have hlt := hc t' (Block.targets_subset_mentions r.body t' ht')
    exact Or.inr ⟨Nat.le_add_left _ _, by omega⟩
  · rw [Block.targets_rename]
    exact hnodup.map fun _ _ he => Nat.add_right_cancel he
  · intro call call' hcall name f g m _ _ _
    rw [Block.exec_singleton]
    have hbody := hcall.body callee r hr bound name g m
    cases hx : call callee m with
    | ok u m' =>
      obtain ⟨g', hy⟩ := hbody.ends hx
      rw [Inst.exec_call_iff.mpr ⟨rfl, hx⟩, hy]
      exact .ok trivial trivial
    | error e m' =>
      simp only [Inst.exec]
      rw [bind_of_error hx]
      exact .of_error _

end Routine.Accepted

namespace Program

/-- Inlining replaces calls by bodies that do alike. -/
theorem grafts_inline (h : ∀ r ∈ p.routines, r.Accepted p.context)
    (hc : ∀ r ∈ p.routines, r.Counted) {callee? : Inst α → Option (Routine α)}
    (hcallee : ∀ inst r, callee? inst = some r →
      ∃ callee, inst = .call callee ∧ p.routine? callee = some r) {body : Block α} :
    ∀ {lanes : Reg → Nat} {V : Set Reg} {next : Nat}, Graftable p.context lanes V next body →
      Grafts .ending (Bodies p) p.context lanes V next (Block.inline callee? next body).2 body
        (Block.inline callee? next body).1 := by
  induction body with
  | nil => exact fun _ => Grafts.nil
  | cons inst rest ih =>
    intro lanes V next hg
    simp only [Block.inline]
    cases hi : callee? inst with
    | some r =>
      obtain ⟨callee, rfl, hr⟩ := hcallee inst r hi
      have hmem := mem_of_routine? hr
      exact Grafts.graft hg rfl ((h r hmem).grafts_call (hc r hmem) hr) fun _ _ hg' => ih hg'
    | none =>
      exact Grafts.keep (fun _ _ hcall => hcall.calls)
        (fun shape inst _ => inst.keeps_ending shape) hg
        (ih (hg.behind (Nat.le_refl _) fun _ _ _ => rfl))

variable (h : p.check = .ok ()) (hc : ∀ r ∈ p.routines, r.Counted)

include h hc in
theorem inlineCalls_grafts (limit : Option Nat) {r : Routine α} (hr : r ∈ p.routines) :
    (r.inlineCalls p limit).Accepted p.context ∧ ∀ call call', Bodies p call call' → ∀ m,
      Mirrors .ending (fun _ _ => True) (Block.exec call r.name 0 r.body RegMap.empty m)
        (Block.exec call' r.name 0 (r.inlineCalls p limit).body RegMap.empty m) := by
  obtain ⟨hn, ha⟩ := check_eq_ok_iff_accepted.mp h
  obtain ⟨⟨lanes, hl⟩, hreads, hnodup⟩ := ha r hr
  have hg : Graftable p.context lanes ∅ r.nextReg r.body := ⟨hl, hreads, hnodup, hc r hr, by simp⟩
  have hcallee : ∀ (inst : Inst α) s, Inst.inlined? p limit r.name inst = some s →
      ∃ callee, inst = .call callee ∧ p.routine? callee = some s := routine?_of_inlined? hn
  obtain ⟨-, ⟨lanes', -, hl'⟩, hreads', -, hnodup', hmirrors⟩ := grafts_inline ha hc hcallee hg
  refine ⟨⟨⟨lanes', hl'⟩, hreads', hnodup'⟩, fun call call' hcall m => ?_⟩
  exact hmirrors hcall r.name (fun _ _ => rfl) (by simp [Frame.Typed]) trivial

include h hc in
/-- Calls that end well end well in one memory, at the same depth or a greater one. -/
theorem inlineCalls_mirrors (limit : Option Nat) (depth : Nat) : ∀ depth', depth ≤ depth' →
    CallsMirror .ending (p.call depth) ((p.inlineCalls limit).1.call depth') := by
  obtain ⟨hn, ha⟩ := check_eq_ok_iff_accepted.mp h
  induction depth using Nat.strong_induction_on with
  | _ depth ih =>
    intro depth' hle name m _
    cases depth with
    | zero => exact .of_error _
    | succ k =>
      obtain ⟨k', rfl⟩ : ∃ k', depth' = k' + 1 := ⟨depth' - 1, by omega⟩
      have hbodies : Bodies p (p.call k) ((p.inlineCalls limit).1.call k') := by
        refine ⟨ih k (by omega) k' (by omega), fun callee r hr bound name g m => ?_⟩
        cases k with
        | zero => exact .of_error _
        | succ j =>
          have hname : r.name = callee := name_of_routine? hr
          subst hname
          have hbody := (ha r (mem_of_routine? hr)).mirrors_rename (ih j (by omega) k' (by omega))
            (φ := (· + bound)) (fun _ _ he => Nat.add_right_cancel he) name g m
          simp only [call, hr, discard]
          -- the call leaves no frame behind, the body in its place does
          have hends := hbody.bind (f := fun _ => pure ()) (g := pure) (Q := fun _ _ => True)
            fun _ _ _ _ _ => .ok trivial trivial
          rwa [bind_pure] at hends
      cases hr : p.routine? name with
      | none =>
        simp only [call, hr]
        exact .of_error _
      | some r =>
        have hr' : (p.inlineCalls limit).1.routine? name = some (r.inlineCalls p limit) := by
          rw [routine?_inlineCalls, hr, Option.map_some]
        have hname : r.name = name := name_of_routine? hr
        have hbody := (inlineCalls_grafts h hc limit (mem_of_routine? hr)).2 _ _ hbodies m
        rw [hname] at hbody
        simp only [call, hr, hr', discard]
        exact hbody.bind fun _ _ _ _ _ => .ok trivial trivial

/-- Inlining leads from a checked program, whose routines count their registers, to another one, in
which every call that ends well still does, and in the same memory. -/
theorem inlineCalls_preserves (h : p.check = .ok ()) (hc : ∀ r ∈ p.routines, r.Counted)
    (limit : Option Nat) :
    (p.inlineCalls limit).1.check = .ok () ∧ (∀ r ∈ (p.inlineCalls limit).1.routines, r.Counted) ∧
      ∀ (depth : Nat) (name : String) (m m' : Memory α), p.call depth name m = .ok () m' →
        (p.inlineCalls limit).1.call depth name m = .ok () m' := by
  refine ⟨check_eq_ok_iff_accepted.mpr ⟨?_, fun r' hr' => ?_⟩, fun r' hr' => ?_,
    fun depth name m m' hx => ?_⟩
  · have hnames : (p.inlineCalls limit).1.routineNames = p.routineNames :=
      congrArg Context.routines (context_inlineCalls p limit)
    exact hnames ▸ (check_eq_ok_iff_accepted.mp h).1
  · obtain ⟨r, hr, rfl⟩ := List.mem_map.mp hr'
    exact context_inlineCalls p limit ▸ (inlineCalls_grafts h hc limit hr).1
  · obtain ⟨r, hr, rfl⟩ := List.mem_map.mp hr'
    exact Routine.counted_sync _
  · obtain ⟨_, hy⟩ := (inlineCalls_mirrors h hc limit depth depth
      (Nat.le_refl _) name m trivial).ends hx
    exact hy

/-- Two routines that call each other, one of them in a loop without counts, and two that ask to be
inlined always and never; the one called from outside calls them all, one twice. -/
def winding : Program Float where
  name := "winding"
  segments := #[⟨"input", .input, #[3, 4]⟩, .zeros "output" .output 3, .zeros "spare" .scratch 1]
  routines := [
    { Routine.ofBody "square" .internal [.load 0 (.fixed 0 0) 1, .binary 1 .mul (.reg 0) (.reg 0),
        .store (.fixed 1 0) (.reg 1) 1] with hint := .always },
    { Routine.ofBody "copy" .internal [.load 0 (.fixed 0 1) 1, .store (.fixed 1 1) (.reg 0) 1]
      with hint := .never },
    .ofBody "even" .internal [.store (.fixed 1 2) (.imm 0) 1, .loop 0 1 false [.call "odd"]],
    .ofBody "odd" .internal [.call "even", .load 0 (.fixed 1 2) 1, .binary 1 .add (.reg 0) (.imm 1),
      .store (.fixed 1 2) (.reg 1) 1],
    .ofBody "main" .external [.call "square", .call "copy", .call "even", .load 0 (.fixed 1 0) 1,
      .call "odd", .call "square", .store (.fixed 2 0) (.reg 0) 1]]

theorem inlineCalls_preserves_winding :
    winding.check = .ok () ∧ (∀ r ∈ winding.routines, r.Counted) ∧
      (winding.inlineCalls (some 4)).1.check = .ok () ∧
      ∃ m', (winding.inlineCalls (some 4)).1.call callLimit "main" winding.initialMemory =
        .ok () m' ∧ m' = #[#[3, 4], #[9, 4, 1], #[9]] := by
  have hc : winding.check = .ok () := by decide +kernel
  have hcount : ∀ r ∈ winding.routines, r.Counted := by
    simp only [winding, List.forall_mem_cons, List.not_mem_nil, false_implies, implies_true,
      and_true]
    exact ⟨Routine.counted_sync _, Routine.counted_sync _, Routine.counted_sync _,
      Routine.counted_sync _, Routine.counted_sync _⟩
  obtain ⟨hcheck, -, hcalls⟩ := inlineCalls_preserves hc hcount (some 4)
  have hend : ∃ m', winding.call callLimit "main" winding.initialMemory = .ok () m' ∧
      m' = #[#[3, 4], #[9, 4, 1], #[9]] := by
    have hok : ((Machine.ofProgram winding).call "main").1 = .ok () := by decide +kernel
    have hmemory : ((Machine.ofProgram winding).call "main").2.memory =
        #[#[3, 4], #[9, 4, 1], #[9]] := by
      decide +kernel
    simp only [Machine.call, Machine.ofProgram] at hok hmemory
    cases hx : winding.call callLimit "main" winding.initialMemory with
    | ok u m' =>
      rw [hx] at hmemory
      exact ⟨m', rfl, hmemory⟩
    | error e m' =>
      rw [hx] at hok
      cases hok
  obtain ⟨m', hrun, hm'⟩ := hend
  exact ⟨hc, hcount, hcheck, m', hcalls callLimit "main" _ m' hrun, hm'⟩

end Program
end StreamStats
