import StreamStats.Proofs.Lists
import StreamStats.Proofs.Thinning

/-! Removing dead code and dead stores changes no answer. A round of either thins a routine; rounds
follow each other as long as code gets smaller. -/

namespace StreamStats

open Exec

variable {α : Type}

mutual

theorem Inst.thins_prune {used : Reg → Bool} : ∀ {inst : Inst α} {rest rest' : Block α},
    (∀ r ∈ inst.uses, used r = true) → Thins {r | used r = true} ∅ rest rest' →
    Thins {r | used r = true} ∅ (inst :: rest) ((inst.prune used).toList ++ rest')
  | .load dst src lanes, _, _, hu, h => by
    by_cases hd : used dst = true
    · rw [Inst.prune, if_pos hd]
      exact .keep rfl hu (by simp) h
    · rw [Inst.prune, if_neg hd]
      exact .drop (by simpa [Inst.Idle] using hd) h
  | .store dst src lanes, _, _, hu, h => .keep rfl hu (by simp) h
  | .binary dst op lhs rhs, _, _, hu, h => by
    by_cases hd : used dst = true
    · rw [Inst.prune, if_pos hd]
      exact .keep rfl hu (by simp) h
    · rw [Inst.prune, if_neg hd]
      exact .drop (by simpa [Inst.Idle] using hd) h
  | .call callee, _, _, hu, h => .keep rfl hu (by simp) h
  | .loop trips step parallel body, _, _, hu, h => by
    have hb : Thins {r | used r = true} ∅ body (Block.prune used body) := Block.thins_prune hu
    simp only [Inst.prune]
    split
    · rename_i he
      rcases Bool.or_eq_true_iff.mp he with he | he
      · rw [List.isEmpty_iff.mp he] at hb
        exact .dropEmpty hb h
      · rw [eq_of_beq he]
        exact .dropIdle h
    · exact .loop hb h

/-- Pruning leaves out what sets registers that are not used. -/
theorem Block.thins_prune {used : Reg → Bool} :
    ∀ {body : List (Inst α)}, (∀ r ∈ Block.uses body, used r = true) →
    Thins {r | used r = true} ∅ body (Block.prune used body)
  | [], _ => .nil
  | _ :: _, hu => Inst.thins_prune
      (fun r hr => hu r (Block.mem_uses_cons.mpr (Or.inl hr)))
      (Block.thins_prune fun r hr => hu r (Block.mem_uses_cons.mpr (Or.inr hr)))

end

mutual

theorem Inst.thins_dropStores {dead : Nat → Bool} : ∀ {inst : Inst α} {rest rest' : Block α},
    (∀ s ∈ inst.reads, dead s = false) → Thins Set.univ {s | dead s = true} rest rest' →
    Thins Set.univ {s | dead s = true} (inst :: rest) ((inst.dropStores dead).toList ++ rest')
  | .load _ _ _, _, _, hr, h => .keep rfl (fun _ _ => trivial) (fun s hs => by simp [hr s hs]) h
  | .store dst src lanes, _, _, hr, h => by
    by_cases hd : dead dst.segment = true
    · rw [Inst.dropStores, if_pos hd]
      exact .drop (by simpa [Inst.Idle] using hd) h
    · rw [Inst.dropStores, if_neg hd]
      exact .keep rfl (fun _ _ => trivial) (fun s hs => by simp [hr s hs]) h
  | .binary _ _ _ _, _, _, hr, h => .keep rfl (fun _ _ => trivial) (fun s hs => by simp [hr s hs]) h
  | .call _, _, _, hr, h => .keep rfl (fun _ _ => trivial) (fun s hs => by simp [hr s hs]) h
  | .loop _ _ _ _, _, _, hr, h => .loop (Block.thins_dropStores hr) h

theorem Block.thins_dropStores {dead : Nat → Bool} : ∀ {body : List (Inst α)},
    (∀ s ∈ Block.reads body, dead s = false) →
    Thins Set.univ {s | dead s = true} body (Block.dropStores dead body)
  | [], _ => .nil
  | _ :: _, hr => Inst.thins_dropStores
      (fun s hs => hr s (List.mem_append_left _ hs))
      (Block.thins_dropStores fun s hs => hr s (List.mem_append_right _ hs))

end

variable [Scalar α] {context : Context α} {S : Set α}

namespace Routine

theorem Tame.sweepBlock (r : Routine α) (body : Block α)
    (h : Routine.Tame context S { r with body }) :
    Routine.Tame context S { r with body := Block.sweep body } ∧
      Routine.Imitates (Memory.Same context.segments) { r with body }
        { r with body := Block.sweep body } := by
  induction body using Block.sweep.induct with
  | case1 body next hlt ih =>
    have hthin : Thins _ ∅ body next := Block.thins_prune fun r hr => by simpa using hr
    obtain ⟨ht, hi⟩ := ih (h.thin hthin)
    have hnext := h.imitates_thin hthin
    rw [Memory.sameOff_empty] at hnext
    rw [Block.sweep, if_pos hlt]
    exact ⟨ht, hnext.trans hi⟩
  | case2 body next hge =>
    rw [Block.sweep, if_neg hge]
    exact ⟨h, h.imitates_self⟩

/-- Sweeping keeps routines tame and does not change what they do. -/
theorem sweep_tame {r : Routine α} (h : r.Tame context S) :
    r.sweep.Tame context S ∧ r.Imitates (Memory.Same context.segments) r.sweep :=
  Tame.sweepBlock r r.body h

end Routine

namespace Program

variable {p : Program α}

omit [Scalar α] in
@[simp] theorem mem_unread {s : Nat} : s ∈ p.unread ↔
    (∃ seg, p.segments[s]? = some seg ∧ seg.role = .scratch) ∧ ∀ r ∈ p.routines,
    s ∉ Block.reads r.body := by
  simp only [unread, reads, List.mem_filter, List.mem_range, Bool.and_eq_true, Option.any_eq_true,
    decide_eq_true_eq, Bool.not_eq_true', List.contains_eq_mem, decide_eq_false_iff_not,
    List.mem_flatMap, not_exists, not_and]
  refine ⟨fun h => h.2, fun h => ⟨?_, h⟩⟩
  obtain ⟨seg, hs, -⟩ := h.1
  exact (Array.getElem?_eq_some_iff.mp hs).1

/-- One round of dropping stores, without what becomes dead by it. -/
def thinStores (p : Program α) : Program α :=
  { p with
    routines := p.routines.map fun r =>
      let body := Block.dropStores p.unread.contains r.body
      if Block.size body < r.size then { r with body } else r }

theorem thinStores_tame (h : p.Tame S) (entry : String) :
    p.thinStores.context = p.context ∧ p.thinStores.Tame S ∧ p.Answers entry p.thinStores := by
  have hread : ∀ r ∈ p.routines, ∀ s ∈ Block.reads r.body, ¬p.unread.contains s = true := by
    intro r hr s hs hc
    have hm : s ∈ p.unread := by simpa using hc
    exact (mem_unread.mp hm).2 r hr hs
  have hunread : ∀ s ∈ {s | p.unread.contains s = true}, ∀ seg : Segment α,
      p.segments[s]? = some seg → seg.role ≠ .output := by
    intro s hs seg hseg
    have hm : s ∈ p.unread := by simpa using hs
    obtain ⟨⟨seg', hseg', hrole⟩, -⟩ := mem_unread.mp hm
    rw [hseg] at hseg'
    cases hseg'
    simp [hrole]
  refine Tame.of_forall₂ (p := p) (q := p.thinStores) rfl ?_ hunread entry
  rw [thinStores, List.forall₂_map_right_iff, List.forall₂_same]
  intro r hr
  have hthin := Block.thins_dropStores fun s hs => Bool.eq_false_of_not_eq_true (hread r hr s hs)
  have hself : Thins Set.univ {s | p.unread.contains s = true} r.body r.body :=
    Block.thins_refl (fun _ _ => Set.mem_univ _) (hread r hr)
  by_cases hlt : Block.size (Block.dropStores p.unread.contains r.body) < r.size
  · simp only [if_pos hlt]
    exact ⟨(h r hr).thin hthin, (h r hr).imitates_thin hthin⟩
  · simp only [if_neg hlt]
    exact ⟨h r hr, (h r hr).imitates_thin hself⟩

theorem dropStores_tame (h : p.Tame S) (entry : String) :
    p.dropStores.context = p.context ∧ p.dropStores.Tame S ∧ p.Answers entry p.dropStores := by
  obtain ⟨hc, ht, ha⟩ := thinStores_tame h entry
  -- the routines that the round made smaller are swept, the others left as they are
  have hsweep : p.dropStores.context = p.thinStores.context ∧ p.dropStores.Tame S ∧
      p.thinStores.Answers entry p.dropStores := by
    refine Tame.of_forall₂ (p := p.thinStores) (q := p.dropStores) (D := ∅) rfl ?_ (by simp) entry
    rw [dropStores, thinStores, List.forall₂_map_left_iff, List.forall₂_map_right_iff,
      List.forall₂_same]
    intro r hr
    have hr : Routine.Tame p.thinStores.context S _ := ht _ (List.mem_map_of_mem hr)
    rw [Memory.sameOff_empty]
    by_cases hlt : Block.size (Block.dropStores p.unread.contains r.body) < r.size
    · simp only [if_pos hlt, Routine.dropStores] at hr ⊢
      exact Routine.sweep_tame hr
    · simp only [if_neg hlt, Routine.dropStores] at hr ⊢
      exact ⟨hr, hr.imitates_self⟩
  exact ⟨hsweep.1.trans hc, hsweep.2.1, ha.trans hsweep.2.2⟩

omit [Scalar α] in
@[simp] theorem name_dropDeadStores (p : Program α) : p.dropDeadStores.name = p.name := by
  induction p using dropDeadStores.induct with
  | case1 p next hlt ih =>
    rw [dropDeadStores, if_pos hlt, ih]
    rfl
  | case2 p next hge => rw [dropDeadStores, if_neg hge]

theorem dropDeadStores_tame (h : p.Tame S) (entry : String) :
    p.dropDeadStores.context = p.context ∧ p.dropDeadStores.Tame S ∧
    p.Answers entry p.dropDeadStores := by
  induction p using dropDeadStores.induct with
  | case1 p next hlt ih =>
    obtain ⟨hc, ht, ha⟩ := dropStores_tame h entry
    obtain ⟨hc', ht', ha'⟩ := ih ht
    rw [dropDeadStores, if_pos hlt]
    exact ⟨hc'.trans hc, ht', ha.trans ha'⟩
  | case2 p next hge =>
    rw [dropDeadStores, if_neg hge]
    refine Tame.of_forall₂ (p := p) (D := ∅) rfl ?_ (by simp) entry
    rw [List.forall₂_same, Memory.sameOff_empty]
    exact fun r hr => ⟨h r hr, (h r hr).imitates_self⟩

end Program
end StreamStats
