import StreamStats.Proofs.Splicing
import StreamStats.Transform.Inline

/-! Inlining changes no answer. The body of a routine, whatever its registers are called, does what
a call of the routine does with one level more to go; so calls do not nest too deep that did not
before, and the proof is by induction on the depth. -/

namespace StreamStats

open Exec

variable {α : Type} [Scalar α] {p : Program α} {S : Set α} {limit : Option Nat}

/-- Calls do what other calls do, and so does the body of a routine where the routine is called. -/
structure Inlines (p : Program α) (call call' : String → Exec α Unit) : Prop where
  calls : CallsFollow (Memory.Same p.segments) call call'
  body : ∀ callee r, p.routine? callee = some r → ∀ φ : Reg → Reg, φ.Injective →
    ∀ (name : String) (g : Frame α) (m : Memory α), m.Fits p.segments →
      Follows (fun _ m' _ n' => Memory.Same p.segments m' n') (call callee) m
        (Block.exec call' name 0 (Block.rename φ r.body) g) m

theorem Routine.Tame.follows_rename {context : Context α} {r : Routine α} (h : r.Tame context S)
    {call call' : String → Exec α Unit}
    (hcall : CallsFollow (Memory.Same context.segments) call call') {φ : Reg → Reg}
    (hφ : φ.Injective) (name : String) (g : Frame α) {m : Memory α} (hm : m.Fits context.segments) :
    Follows (fun _ m' _ n' => Memory.Same context.segments m' n')
      (Block.exec call r.name 0 r.body RegMap.empty) m
        (Block.exec call' name 0 (Block.rename φ r.body) g) m := by
  have hrename : Follows (fun f' m' g' n' => Frame.Renames φ (Block.define r.body ∅) f' g' ∧
      Memory.Same context.segments m' n') (Block.exec call r.name 0 r.body RegMap.empty) m
      (Block.exec call' name 0 (Block.rename φ r.body) g) m :=
    Block.exec_rename hcall h.writes h.reads h.nodup (by simp)
    (fun _ _ _ _ he => hφ he) (by simp [Frame.Renames]) ⟨rfl, hm⟩
  exact hrename.imp fun _ _ _ _ h => h.2

theorem Program.Tame.swaps_call (h : p.Tame S) {callee : String} {r : Routine α}
    (hr : p.routine? callee = some r) (hc : r.Counted) {info : Reg → Info α} {bound : Nat} :
    Swaps (Inlines p) p.context S info bound r.nextReg [.call callee]
      (Block.rename (· + bound) r.body) := by
  have hinj : Function.Injective fun t : Reg => t + bound := fun _ _ he => Nat.add_right_cancel he
  obtain ⟨⟨inner, hinner⟩, hreads, hnodup⟩ := h r (Program.mem_of_routine? hr)
  have htargets : ∀ t : Nat, t ∈ Block.targets r.body → t < r.nextReg := fun t ht =>
    hc t (Block.targets_subset_mentions r.body t ht)
  refine ⟨⟨fun t => if t < bound then info t else inner (t - bound), fun t ht => if_pos ht, ?_⟩,
    Block.Scoped.rename _ hreads (by simp), ?_, ?_, ?_, ?_⟩
  · intro inst hi
    rw [Block.rename_eq_map] at hi
    obtain ⟨inst, hmem, rfl⟩ := List.mem_map.mp hi
    refine (hinner inst hmem).rename hinj fun t _ => ?_
    have hge : ¬t + bound < bound := Nat.not_lt.mpr (Nat.le_add_left _ _)
    simp [hge]
  · intro t ht
    rw [Block.targets_rename] at ht
    obtain ⟨t', ht', rfl⟩ := List.mem_map.mp ht
    have hlt := htargets t' ht'
    exact Or.inr ⟨Nat.le_add_left _ _, by omega⟩
  · rw [Block.targets_rename]
    exact hnodup.map hinj
  · simp [Inst.define, Inst.target?]
  · intro call call' hcall name f g m hm
    rw [Block.exec_singleton]
    intro f' m' hx
    obtain ⟨-, hend⟩ := Inst.exec_call_iff.mp hx
    exact hcall.body callee r hr _ hinj name g m hm () m' hend

theorem Program.Tame.splices_inline (h : p.Tame S) (hc : ∀ r ∈ p.routines, r.Counted)
    {callee? : Inst α → Option (Routine α)} (hcallee : ∀ inst r, callee? inst = some r →
      ∃ callee, inst = .call callee ∧ p.routine? callee = some r) {body : Block α} :
    ∀ {info : Reg → Info α} {V W : Set Reg} {next : Nat},
    Spliceable p.context S info V W next body →
      Splices (Inlines p) p.context S info V W next (Block.inline callee? next body).2 body
        (Block.inline callee? next body).1 := by
  induction body with
  | nil => exact fun _ => Splices.nil
  | cons inst rest ih =>
    intro info V W next hs
    have hs : Spliceable p.context S info V W next ([inst] ++ rest) := hs
    simp only [Block.inline]
    cases hi : callee? inst with
    | some r =>
      obtain ⟨callee, rfl, hr⟩ := hcallee inst r hi
      exact Splices.splice hs (h.swaps_call hr (hc r (Program.mem_of_routine? hr)))
        (by simp [Inst.define, Inst.target?]) fun _ _ _ hs' => ih hs'
    | none => exact Splices.keep (fun _ _ hcall => hcall.calls) hs (ih hs.after)

namespace Program

omit [Scalar α] in
theorem routine?_of_lastRoutine? (hn : p.routineNames.Nodup) {name : String} {r : Routine α}
    (hr : p.lastRoutine? name = some r) : p.routine? name = some r := by
  have hmem : r ∈ p.routines := List.mem_reverse.mp (List.mem_of_find?_eq_some hr)
  have hname : r.name = name := by simpa using List.find?_some hr
  rw [← hname, routine?_eq_some hn hmem]

omit [Scalar α] in
theorem routine?_of_inlined? (hn : p.routineNames.Nodup) {caller : String} (inst : Inst α)
    (r : Routine α) (hi : inst.inlined? p limit caller = some r) :
    ∃ callee, inst = .call callee ∧ p.routine? callee = some r := by
  cases inst with
  | call callee =>
    simp only [Inst.inlined?] at hi
    split at hi
    · cases hi
    · exact ⟨callee, rfl, routine?_of_lastRoutine? hn (Option.filter_eq_some_iff.mp hi).1⟩
  | _ => cases hi

omit [Scalar α] in
@[simp] theorem context_inlineCalls (p : Program α) (limit : Option Nat) :
    (p.inlineCalls limit).1.context = p.context := by
  have hnames : (p.inlineCalls limit).1.routineNames = p.routineNames := by
    simp [inlineCalls, routineNames, Routine.inlineCalls, Routine.sync]
  rw [context, context, hnames]
  rfl

omit [Scalar α] in
@[simp] theorem routine?_inlineCalls (p : Program α) (limit : Option Nat) (name : String) :
    (p.inlineCalls limit).1.routine? name = (p.routine? name).map (Routine.inlineCalls p limit) :=
  List.find?_map

variable (h : p.Tame S) (hn : p.routineNames.Nodup) (hc : ∀ r ∈ p.routines, r.Counted)

include h hn hc in
theorem inlineCalls_routine (limit : Option Nat) {r : Routine α} (hr : r ∈ p.routines) :
    (r.inlineCalls p limit).Tame p.context S ∧ ∀ call call', Inlines p call call' →
      ∀ m n, Memory.Same p.segments m n → Follows (fun _ m' _ n' => Memory.Same p.segments m' n')
        (Block.exec call r.name 0 r.body RegMap.empty) m
        (Block.exec call' r.name 0 (r.inlineCalls p limit).body RegMap.empty) n :=
  (h r hr).splice (hc r hr) (r.inlineCalls p limit) fun _ hs =>
    ⟨_, h.splices_inline hc (routine?_of_inlined? hn) hs⟩

include h hn hc in
/-- Calls end as before, at the same depth or a greater one. -/
theorem inlineCalls_follows (limit : Option Nat) (depth : Nat) : ∀ depth', depth ≤ depth' →
    CallsFollow (Memory.Same p.segments) (p.call depth) ((p.inlineCalls limit).1.call depth') := by
  induction depth using Nat.strong_induction_on with
  | _ depth ih =>
    intro depth' hle name m n hmn
    cases depth with
    | zero =>
      intro u m' hx
      cases hx
    | succ k =>
      obtain ⟨k', rfl⟩ : ∃ k', depth' = k' + 1 := ⟨depth' - 1, by omega⟩
      have hinlines : Inlines p (p.call k) ((p.inlineCalls limit).1.call k') := by
        refine ⟨ih k (by omega) k' (by omega), fun callee r hr φ hφ name g m hm => ?_⟩
        cases k with
        | zero =>
          intro u m' hx
          cases hx
        | succ j =>
          intro u m' hx
          simp only [call, hr, discard] at hx
          obtain ⟨f', m₁, hx, hu⟩ := Exec.bind_eq_ok hx
          obtain ⟨-, rfl⟩ := pure_eq_ok_iff.mp hu
          have htame := h r (mem_of_routine? hr)
          have hname : r.name = callee := name_of_routine? hr
          subst hname
          exact htame.follows_rename (ih j (by omega) k' (by omega)) hφ name g hm f' m' hx
      cases hr : p.routine? name with
      | none =>
        intro u m' hx
        simp only [call, hr] at hx
        cases hx
      | some r =>
        have hr' : (p.inlineCalls limit).1.routine? name = some (r.inlineCalls p limit) := by
          rw [routine?_inlineCalls, hr, Option.map_some]
        have hname : r.name = name := name_of_routine? hr
        have hbody := (inlineCalls_routine h hn hc limit (mem_of_routine? hr)).2 _ _ hinlines m n
          hmn
        rw [hname] at hbody
        simp only [call, hr, hr', discard]
        exact hbody.bind fun _ _ _ _ hmn' => Follows.pure hmn'

include h hn hc in
/-- Inlining keeps programs tame and changes no answer. -/
theorem inlineCalls_tame (limit : Option Nat) (entry : String) :
    (p.inlineCalls limit).1.context = p.context ∧ (p.inlineCalls limit).1.Tame S ∧
      p.Answers entry (p.inlineCalls limit).1 := by
  have hcontext := context_inlineCalls p limit
  refine ⟨hcontext, fun r' hr' => ?_, answers_of_same rfl fun m n =>
    inlineCalls_follows h hn hc limit callLimit callLimit (Nat.le_refl _) entry m n⟩
  obtain ⟨r, hr, rfl⟩ := List.mem_map.mp hr'
  exact hcontext ▸ (inlineCalls_routine h hn hc limit hr).1

end Program
end StreamStats
