import StreamStats.Proofs.Sweeping

/-! Sweeping of any code, checked or not. Whatever ends, ends with the same memory; and what is left
sets only registers that are read, in loops that run. -/

namespace StreamStats

open Exec

variable {α : Type}

mutual

theorem Inst.each_of_forall {P : Option Check.Shape → Inst α → Prop}
    (h : ∀ shape inst, P shape inst) :
    ∀ {shape : Option Check.Shape} {inst : Inst α}, inst.Each P shape
  | _, .load _ _ _ | _, .store _ _ _ | _, .binary _ _ _ _ | _, .call _ => h _ _
  | _, .loop _ _ _ _ => ⟨h _ _, Block.each_of_forall h⟩

theorem Block.each_of_forall {P : Option Check.Shape → Inst α → Prop}
    (h : ∀ shape inst, P shape inst) :
    ∀ {shape : Option Check.Shape} {body : List (Inst α)}, Block.Each P shape body
  | _, [] => trivial
  | _, _ :: _ => ⟨Inst.each_of_forall h, Block.each_of_forall h⟩

end

theorem Block.cons_eq_or_lt {inst : Inst α} {kept : Option (Inst α)} {rest rest' : List (Inst α)}
    {P Q : Prop} (hinst : (kept = some inst ∧ P) ∨ size kept.toList < inst.size)
    (hrest : (rest' = rest ∧ Q) ∨ size rest' < size rest) :
    (kept.toList ++ rest' = inst :: rest ∧ P ∧ Q) ∨ size (kept.toList ++ rest') < size
    (inst :: rest) := by
  rw [size_append, size]
  rcases hinst, hrest with ⟨⟨rfl, hp⟩ | hi, ⟨rfl, hq⟩ | hr⟩
  · exact Or.inl ⟨rfl, hp, hq⟩
  · exact Or.inr (by simp only [Option.toList_some, size]; omega)
  · exact Or.inr (by omega)
  · exact Or.inr (by omega)

namespace Inst

/-- An instruction that sweeping has no reason to remove: what it sets is used, or it is a loop that
runs some code. -/
def Live (U : Set Reg) (_ : Option Check.Shape) : Inst α → Prop
  | .load dst _ _ | .binary dst _ _ _ => dst ∈ U
  | .loop trips _ _ body => body ≠ [] ∧ trips ≠ 0
  | .store _ _ _ | .call _ => True

end Inst

mutual

theorem Inst.prune_eq_or_lt (used : Reg → Bool) : ∀ (shape : Option Check.Shape) (inst : Inst α),
    (inst.prune used = some inst ∧ inst.Each (Inst.Live {r | used r = true}) shape) ∨
      Block.size (inst.prune used).toList < inst.size
  | shape, .load dst src lanes => by
    by_cases hd : used dst = true
    · exact Or.inl ⟨by rw [Inst.prune, if_pos hd], hd⟩
    · exact Or.inr (by simp [Inst.prune, hd, Block.size, Inst.size])
  | shape, .binary dst op lhs rhs => by
    by_cases hd : used dst = true
    · exact Or.inl ⟨by rw [Inst.prune, if_pos hd], hd⟩
    · exact Or.inr (by simp [Inst.prune, hd, Block.size, Inst.size])
  | shape, .store dst src lanes => Or.inl ⟨rfl, trivial⟩
  | shape, .call callee => Or.inl ⟨rfl, trivial⟩
  | shape, .loop trips step parallel body => by
    simp only [Inst.prune]
    split
    · exact Or.inr (by simp only [Option.toList_none, Block.size, Inst.size]; omega)
    · rename_i hkeep
      simp only [Bool.or_eq_true, List.isEmpty_iff, beq_iff_eq, not_or] at hkeep
      rcases Block.prune_eq_or_lt used (some ⟨iterations trips step, step⟩) body with
        ⟨heq, hlive⟩ | hlt
      · rw [heq] at hkeep ⊢
        exact Or.inl ⟨rfl, hkeep, hlive⟩
      · exact Or.inr (by simp only [Option.toList_some, Block.size, Inst.size]; omega)

theorem Block.prune_eq_or_lt (used : Reg → Bool) :
    ∀ (shape : Option Check.Shape) (body : List (Inst α)), (Block.prune used body = body ∧
      Block.Each (Inst.Live {r | used r = true}) shape body) ∨
      Block.size (Block.prune used body) < Block.size body
  | _, [] => Or.inl ⟨rfl, trivial⟩
  | shape, inst :: rest => by
    exact Block.cons_eq_or_lt (Inst.prune_eq_or_lt used shape inst)
      (Block.prune_eq_or_lt used shape rest)

end

namespace Block

/-- Sweeping prunes round by round, at most once for every instruction. -/
theorem exists_sweep_eq_iterate (body : Block α) :
    ∃ n ≤ size body, sweep body = pruneUnused^[n] body := by
  induction body using sweep.induct with
  | case1 body next hlt ih =>
    obtain ⟨n, hn, hs⟩ := ih
    rw [sweep, if_pos hlt]
    exact ⟨n + 1, by omega, hs⟩
  | case2 body next hge =>
    rw [sweep, if_neg hge]
    exact ⟨0, Nat.zero_le _, rfl⟩

/-- Sweeping ends where pruning finds everything live. -/
theorem live_sweep (body : Block α) :
    pruneUnused (sweep body) = sweep body ∧
      Block.Each (Inst.Live {r | r ∈ uses (sweep body)}) none (sweep body) := by
  induction body using sweep.induct with
  | case1 body next hlt ih =>
    rw [sweep, if_pos hlt]
    exact ih
  | case2 body next hge =>
    rw [sweep, if_neg hge]
    have hlive := (prune_eq_or_lt _ none body).resolve_right hge
    simpa [pruneUnused] using hlive

end Block

variable [Scalar α]

theorem Memory.masks_eq : Masks (fun (_ : Option Check.Shape) (_ : Inst α) => True) ∅ Eq where
  holds := by
    rintro m _ rfl _ _ _ h
    exact h
  valueAt_eq := by
    rintro m _ rfl _ _
    rfl
  writeFrom := by
    rintro m _ rfl _ _ _ _ _ _ _
    rfl
  writeFrom_left _ _ _ _ _ _ h := h.elim

omit [Scalar α] in
@[simp] theorem CallsFollow.eq_refl (call : String → Exec α Unit) : CallsFollow Eq call call := by
  rintro name m _ rfl u m' h
  exact ⟨u, m', h, rfl⟩

namespace Routine

theorem Imitates.trans_eq {S : Memory α → Memory α → Prop} {r r' r'' : Routine α}
    (h : r.Imitates S r') (h' : r'.Imitates Eq r'') : r.Imitates S r'' := by
  refine ⟨h'.name_eq.trans h.name_eq, fun call call' hcall m n hmn u m' hx => ?_⟩
  obtain ⟨u', n', hy, hs⟩ := h.body call call' hcall m n hmn u m' hx
  have hfollows := h'.body call' call' (.eq_refl call') n n rfl
  rw [h.name_eq] at hfollows
  obtain ⟨u'', _, hz, rfl⟩ := hfollows u' n' hy
  exact ⟨u'', n', hz, hs⟩

@[simp] theorem imitates_eq_self (r : Routine α) : r.Imitates Eq r :=
  (Block.thins_refl (fun _ _ => Set.mem_univ _) (by simp)).imitates Memory.masks_eq
    (Block.each_of_forall fun _ _ => trivial)

/-- Sweeping does not change what a routine does where it succeeds. -/
@[simp] theorem imitates_sweep (r : Routine α) : r.Imitates Eq r.sweep := by
  obtain ⟨name, linkage, hint, nextReg, body⟩ := r
  induction body using Block.sweep.induct with
  | case1 body next hlt ih =>
    have hthin : Thins _ ∅ body next := Block.thins_prune fun r hr => by simpa using hr
    have hnext := hthin.imitates (r := ⟨name, linkage, hint, nextReg, body⟩) Memory.masks_eq
      (Block.each_of_forall fun _ _ => trivial)
    rw [sweep, Block.sweep, if_pos hlt]
    exact hnext.trans_eq ih
  | case2 body next hge =>
    rw [sweep, Block.sweep, if_neg hge]
    exact imitates_eq_self _

end Routine

theorem Machine.call_of_ok (m : Machine α) (name : String) (h : (m.call name).1 = .ok ()) :
    m.program.call callLimit name m.memory = .ok () (m.call name).2.memory := by
  unfold Machine.call at h ⊢
  cases hx : m.program.call callLimit name m.memory with
  | ok u m' => rfl
  | error e m' =>
    rw [hx] at h
    cases h

namespace Program

/-- One routine of a program swept, be it checked or not. A call that succeeds does so with the same
memory; the rounds come to an end, one for an instruction at most, and leave nothing to sweep. -/
theorem sweepAt_preserves (p : Program α) (index : Nat) :
    (∀ depth name m m', p.call depth name m = .ok () m' →
      (p.rewriteAt index .sweep).call depth name m = .ok () m') ∧
    ∀ r, p.routines[index]? = some r →
      (p.rewriteAt index .sweep).routines = p.routines.set index r.sweep ∧
      (∃ n ≤ r.size, r.sweep.body = Block.pruneUnused^[n] r.body) ∧
      Block.pruneUnused r.sweep.body = r.sweep.body ∧
      Block.Each (Inst.Live {reg | reg ∈ Block.uses r.sweep.body}) none r.sweep.body := by
  constructor
  · intro depth name m m' h
    have hroutines : List.Forall₂ (Routine.Imitates Eq) p.routines
        (p.rewriteAt index .sweep).routines :=
      forall₂_modify_self (fun r _ => r.imitates_eq_self) fun r _ => r.imitates_sweep
    obtain ⟨_, _, h', rfl⟩ := callsFollow hroutines depth name m m rfl _ _ h
    exact h'
  · intro r hr
    refine ⟨?_, Block.exists_sweep_eq_iterate r.body, Block.live_sweep r.body⟩
    obtain ⟨hi, rfl⟩ := List.getElem?_eq_some_iff.mp hr
    exact List.modify_eq_set_get _ hi

/-- Sets one register twice, and others in vain, in loops that nest, or do not run and read what
nothing sets. -/
def littered : Program Float where
  name := "littered"
  segments := #[.zeros "state" .state 2]
  routines := [.ofBody "main" .external [
    .load 0 (.fixed 0 1) 1,
    .binary 1 .add (.reg 0) (.imm 1),
    .loop 2 0 false [.loop 3 1 false [.binary 2 .mul (.reg 1) (.imm 2)]],
    .loop 0 1 false [.store (.fixed 0 0) (.reg 3) 1],
    .binary 0 .mul (.imm 2) (.imm 3),
    .loop 2 1 false [.binary 4 .add (.reg 0) (.imm 1), .store ⟨0, 0, 1⟩ (.reg 0) 1]]]

theorem sweepAt_preserves_littered :
    littered.check = .error ⟨"main", .zeroStep⟩ ∧ littered.size = 11 ∧
      (littered.rewriteAt 0 .sweep).size = 4 ∧
      ∃ m', (littered.rewriteAt 0 .sweep).call callLimit "main" littered.initialMemory = .ok () m' ∧
        m' = #[#[6, 6]] := by
  have hcall := Machine.call_of_ok (.ofProgram littered) "main" (by decide +kernel)
  refine ⟨by decide +kernel, by decide +kernel, by decide +kernel, _,
    (sweepAt_preserves littered 0).1 _ _ _ _ hcall, by decide +kernel⟩

end Program
end StreamStats
