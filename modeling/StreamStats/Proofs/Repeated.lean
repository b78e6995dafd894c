import StreamStats.Pass
import StreamStats.Proofs.Repacked
import StreamStats.Proofs.Swept

/-! Passes that are run again. The passes on single routines say whether they change the body, and
run to the end: what one leaves, the same pass leaves as it is, and says so. -/

namespace StreamStats

variable {α : Type}

section Folding

variable [Scalar α] {segments : Array (Segment α)}

/-- An instruction that folding has no reason to remove. -/
def Inst.Rigid (segments : Array (Segment α)) (_ : Option Check.Shape) : Inst α → Prop
  | .load _ src _ => constantAt? segments src = none
  | .binary _ op lhs rhs => op.simplify lhs rhs = none
  | .store _ _ _ | .call _ | .loop _ _ _ _ => True

omit [Scalar α] in
@[simp] theorem Known.resolve_empty (x : Operand α) : Known.resolve RegMap.empty x = x := by
  cases x <;> simp [Known.resolve]

omit [Scalar α] in
@[simp] theorem Known.replaces_empty (x : Operand α) : Known.replaces RegMap.empty x = false := by
  cases x <;> simp [Known.replaces, RegMap.contains]

mutual

/-- Folding leaves only what it has no reason to remove, whatever was known. -/
theorem Inst.rigid_fold : ∀ (inst : Inst α) (entered : Operand α → Operand α) (known : Known α)
    (shape : Option Check.Shape),
    Block.Each (Inst.Rigid segments) shape (inst.fold segments entered known).1
  | .load dst src lanes, entered, known, shape => by
    simp only [Inst.fold]
    cases hc : constantAt? segments src with
    | some _ => trivial
    | none => exact ⟨hc, trivial⟩
  | .store _ _ _, _, _, _ => ⟨trivial, trivial⟩
  | .binary dst op lhs rhs, entered, known, shape => by
    simp only [Inst.fold]
    cases hs : op.simplify (known.resolve (entered lhs)) (known.resolve (entered rhs)) with
    | some _ => trivial
    | none => exact ⟨hs, trivial⟩
  | .call _, _, _, _ => ⟨trivial, trivial⟩
  | .loop _ _ _ body, _, _, _ => ⟨⟨trivial, Block.rigid_fold body _ _ _⟩, trivial⟩

theorem Block.rigid_fold : ∀ (body : List (Inst α)) (entered : Operand α → Operand α)
    (known : Known α) (shape : Option Check.Shape),
    Block.Each (Inst.Rigid segments) shape (Block.fold segments entered body known).1
  | [], _, _, _ => trivial
  | inst :: rest, _, _, _ =>
    Block.each_append.mpr ⟨Inst.rigid_fold inst _ _ _, Block.rigid_fold rest _ _ _⟩

end

omit [Scalar α] in
theorem Known.resolve_empty_comp :
    (fun x => Known.resolve RegMap.empty (id x)) = (id : Operand α → Operand α) :=
  funext Known.resolve_empty

mutual

theorem Inst.fold_of_rigid :
    ∀ {inst : Inst α} {shape : Option Check.Shape}, inst.Each (Inst.Rigid segments) shape →
    inst.foldReports segments id RegMap.empty = false ∧
      inst.fold segments id RegMap.empty = ([inst], RegMap.empty)
  | .load _ src _, _, h => by
    have h : constantAt? segments src = none := h
    simp [Inst.foldReports, Inst.fold, h]
  | .store _ _ _, _, _ => by simp [Inst.foldReports, Inst.fold]
  | .binary _ op lhs rhs, _, h => by
    have h : op.simplify lhs rhs = none := h
    simp [Inst.foldReports, Inst.fold, h]
  | .call _, _, _ => ⟨rfl, rfl⟩
  | .loop _ _ _ body, _, h => by
    obtain ⟨hq, hf⟩ := Block.fold_of_rigid h.2
    rw [Inst.foldReports, Inst.fold, Known.resolve_empty_comp, hq, hf]
    simp

theorem Block.fold_of_rigid : ∀ {body : List (Inst α)} {shape : Option Check.Shape},
    Block.Each (Inst.Rigid segments) shape body →
    Block.foldReports segments id body RegMap.empty = false ∧
      Block.fold segments id body RegMap.empty = (body, RegMap.empty)
  | [], _, _ => ⟨rfl, rfl⟩
  | inst :: rest, _, h => by
    obtain ⟨hq, hf⟩ := Inst.fold_of_rigid h.1
    obtain ⟨hq', hf'⟩ := Block.fold_of_rigid h.2
    simp [Block.foldReports, Block.fold, hq, hf, hq', hf']

end

mutual

/-- Where folding reports no change, nothing folds. -/
theorem Inst.rigid_of_silent : ∀ {inst : Inst α} {shape : Option Check.Shape},
    inst.foldReports segments id RegMap.empty = false → inst.Each (Inst.Rigid segments) shape
  | .load _ src _, _, h => by
    have h : constantAt? segments src = none := by simpa [Inst.foldReports] using h
    exact h
  | .store _ _ _, _, _ => trivial
  | .binary _ op lhs rhs, _, h => by
    have h : op.simplify lhs rhs = none := by simpa [Inst.foldReports] using h
    exact h
  | .call _, _, _ => trivial
  | .loop _ _ _ body, _, h => by
    rw [Inst.foldReports, Known.resolve_empty_comp, Bool.or_eq_false_iff] at h
    exact ⟨trivial, Block.rigid_of_silent h.2⟩

theorem Block.rigid_of_silent : ∀ {body : List (Inst α)} {shape : Option Check.Shape},
    Block.foldReports segments id body RegMap.empty = false →
    Block.Each (Inst.Rigid segments) shape body
  | [], _, _ => trivial
  | inst :: rest, shape, h => by
    rw [Block.foldReports, Bool.or_eq_false_iff] at h
    have hi : inst.Each (Inst.Rigid segments) shape := Inst.rigid_of_silent h.1
    rw [(Inst.fold_of_rigid hi).2] at h
    exact ⟨hi, Block.rigid_of_silent h.2⟩

end

end Folding

section Sweeping

variable {used : Reg → Bool}

@[simp] theorem Inst.size_prune_le (used : Reg → Bool) (inst : Inst α) :
    Block.size (inst.prune used).toList ≤ inst.size := by
  rcases inst.prune_eq_or_lt used none with ⟨heq, -⟩ | hlt
  · rw [heq, Option.toList_some, Block.size, Block.size, Nat.add_zero]
  · exact hlt.le

@[simp] theorem Block.size_prune_le (used : Reg → Bool) (body : List (Inst α)) :
    size (prune used body) ≤ size body := by
  rcases prune_eq_or_lt used none body with ⟨heq, -⟩ | hlt
  · rw [heq]
  · exact hlt.le

mutual

@[simp] theorem Inst.pruneReports_iff : ∀ {inst : Inst α},
    inst.pruneReports used = true ↔ Block.size (inst.prune used).toList < inst.size
  | .load dst src lanes => by
    cases hd : used dst <;> simp [Inst.pruneReports, Inst.prune, hd, Block.size, Inst.size]
  | .binary dst op lhs rhs => by
    cases hd : used dst <;> simp [Inst.pruneReports, Inst.prune, hd, Block.size, Inst.size]
  | .store _ _ _ => by simp [Inst.pruneReports, Inst.prune, Block.size, Inst.size]
  | .call _ => by simp [Inst.pruneReports, Inst.prune, Block.size, Inst.size]
  | .loop trips step parallel body => by
    have hbody : Block.pruneReports used body = true ↔
        Block.size (Block.prune used body) < Block.size body := Block.pruneReports_iff
    rw [Inst.pruneReports, Bool.or_eq_true, hbody]
    simp only [Inst.prune]
    split
    · simp [Block.size, Inst.size]
    · simp [Block.size, Inst.size]

@[simp] theorem Block.pruneReports_iff : ∀ {body : List (Inst α)},
    Block.pruneReports used body = true ↔ Block.size (Block.prune used body) < Block.size body
  | [] => by simp [Block.pruneReports, Block.prune]
  | inst :: rest => by
    have hi := inst.size_prune_le used
    have hr := Block.size_prune_le used rest
    rw [Block.pruneReports, Bool.or_eq_true, Inst.pruneReports_iff, Block.pruneReports_iff,
      Block.prune, Block.size_append, Block.size]
    omega

end

theorem Block.sweep_of_silent {body : Block α} (h : body.sweepReports = false) :
    body.sweep = body := by
  have hge : ¬ size (pruneUnused body) < size body := by
    rw [pruneUnused, ← pruneReports_iff, ← sweepReports, h]
    exact Bool.false_ne_true
  rw [sweep, if_neg hge]

@[simp] theorem Block.sweepReports_sweep (body : Block α) : body.sweep.sweepReports = false := by
  rw [← Bool.not_eq_true, sweepReports, pruneReports_iff, ← pruneUnused, (live_sweep body).1]
  exact Nat.lt_irrefl _

end Sweeping

section Widening

variable {width : Nat}

/-- An instruction that is not a loop to widen, whatever the next free register. -/
def Inst.Narrow (width : Nat) (inst : Inst α) : Prop := ∀ next, inst.widened? width next = none

theorem Inst.narrow_of_none {inst : Inst α} {next : Reg} (h : inst.widened? width next = none) :
    inst.Narrow width := by
  intro next'
  cases inst with
  | loop trips step parallel body =>
    simp only [Inst.widened?] at h ⊢
    split at h
    · split at h <;> cases h
    · rename_i hc
      rw [if_neg hc]
  | load _ _ _ => rfl
  | store _ _ _ => rfl
  | binary _ _ _ _ => rfl
  | call _ => rfl

theorem Inst.narrow_widened (hw : 2 ≤ width) {inst : Inst α} {next next' : Reg} {loops : Block α}
    (h : inst.widened? width next = some (loops, next')) : ∀ loop ∈ loops, loop.Narrow width := by
  cases inst with
  | loop trips step parallel body =>
    have hwide : ∀ trips body, (Inst.loop trips width true body : Inst α).Narrow width := by
      intro trips body next
      have hstep : ¬width = 1 := by omega
      simp [Inst.widened?, hstep]
    have hrest : ∀ body, (Inst.loop (trips - (trips - trips % width)) 1 true body : Inst α).Narrow
        width := by
      intro body next
      have hlt := Nat.mod_lt trips (by omega : 0 < width)
      have hle := Nat.mod_le trips width
      have hshort : ¬width ≤ trips - (trips - trips % width) := by omega
      simp [Inst.widened?, hshort]
    simp only [Inst.widened?] at h
    split at h
    · split at h
      · cases h
        simpa using ⟨hwide _ _, hrest _⟩
      · cases h
        simpa using hwide _ _
    · cases h
  | load _ _ _ => cases h
  | store _ _ _ => cases h
  | binary _ _ _ _ => cases h
  | call _ => cases h

namespace Block

theorem narrow_widen (hw : 2 ≤ width) (body : List (Inst α)) :
    ∀ next, ∀ inst ∈ (widen width next body).1, inst.Narrow width := by
  induction body with
  | nil => exact fun _ _ hi => (List.not_mem_nil hi).elim
  | cons inst rest ih =>
    intro next
    simp only [widen]
    cases hi : inst.widened? width next with
    | some made => exact List.forall_mem_append.mpr ⟨Inst.narrow_widened hw hi, ih made.2⟩
    | none => exact List.forall_mem_cons.mpr ⟨Inst.narrow_of_none hi, ih next⟩

theorem widen_of_narrow {body : List (Inst α)} (h : ∀ inst ∈ body, inst.Narrow width) (next : Reg) :
    widen width next body = (body, next, 0) := by
  induction body with
  | nil => rfl
  | cons inst rest ih =>
    obtain ⟨hi, hr⟩ := List.forall_mem_cons.mp h
    simp only [widen, hi next, ih hr]

theorem widen_of_zero {body : List (Inst α)} : ∀ {next : Reg}, (widen width next body).2.2 = 0 →
    (widen width next body).1 = body := by
  induction body with
  | nil => exact fun _ => rfl
  | cons inst rest ih =>
    intro next h
    simp only [widen] at h ⊢
    cases hi : inst.widened? width next with
    | some made =>
      rw [hi] at h
      cases h
    | none =>
      rw [hi] at h
      exact congrArg (inst :: ·) (ih h)

end Block

theorem Routine.widenLoops_eq (hw : ¬width < 2) (r : Routine α) : r.widenLoops width =
    ({ r.sync with
        body := (Block.widen width r.sync.nextReg r.body).1
        nextReg := (Block.widen width r.sync.nextReg r.body).2.1 },
      (Block.widen width r.sync.nextReg r.body).2.2) :=
  if_neg hw

end Widening

namespace RoutinePass

variable {σ : Type}

/-- The pass succeeds and tells whether it changes the body; and on what it leaves, it succeeds
without a change. -/
def Exhausts (pass : RoutinePass σ α) (context : Context α) (r : Routine α) : Prop :=
  ∀ world, ∃ changed r', (pass.run context).run (r, world) = (.ok changed, r', world) ∧
    (changed = true ↔ r'.body ≠ r.body) ∧
    ∀ world, ∃ r'', (pass.run context).run (r', world) = (.ok false, r'', world) ∧
    r''.body = r'.body

variable {context : Context α} {transform : Context α → Routine α → Routine α × Bool}
    {name : String} {r : Routine α}

/-- A pass that works towards code on which it keeps silent reports changes exactly: what is
reported without a change would be reported again. -/
theorem exhausts_ofTransform (settled : Block α → Prop)
    (hquiet : ∀ r, settled r.body → (transform context r).2 = false ∧
      (transform context r).1.body = r.body)
    (hsame : (transform context r).2 = false → (transform context r).1.body = r.body)
    (hsettled : settled (transform context r).1.body) :
    (ofTransform name transform : RoutinePass σ α).Exhausts context r := by
  intro world
  refine ⟨(transform context r).2, (transform context r).1, rfl,
    ⟨fun hchanged heq => ?_, fun hne => ?_⟩, fun world => ?_⟩
  · rw [heq] at hsettled
    rw [(hquiet r hsettled).1] at hchanged
    cases hchanged
  · by_contra hchanged
    exact hne (hsame (Bool.not_eq_true _ ▸ hchanged))
  · obtain ⟨hflag, hbody⟩ := hquiet _ hsettled
    exact ⟨_, by rw [← hflag]; rfl, hbody⟩

theorem exhausts_sweep (context : Context α) (r : Routine α) :
    (sweep : RoutinePass σ α).Exhausts context r :=
  exhausts_ofTransform (fun body => body.sweepReports = false)
    (fun _ h => ⟨h, Block.sweep_of_silent h⟩) Block.sweep_of_silent
    (Block.sweepReports_sweep r.body)

theorem exhausts_widenLoops (context : Context α) (width : Nat) (r : Routine α) :
    (widenLoops width : RoutinePass σ α).Exhausts context r := by
  by_cases hw : width < 2
  · refine exhausts_ofTransform (fun _ => True) (fun r _ => ?_) (fun _ => ?_) trivial <;>
      simp [Routine.widenLoops, hw]
  refine exhausts_ofTransform (fun body => ∀ inst ∈ body, inst.Narrow width) (fun r h => ?_)
    (fun h => ?_) ?_
  · simp [Routine.widenLoops_eq hw, Block.widen_of_narrow h]
  · rw [Routine.widenLoops_eq hw] at h ⊢
    exact Block.widen_of_zero (by simpa using h)
  · rw [Routine.widenLoops_eq hw]
    exact Block.narrow_widen (Nat.not_lt.mp hw) r.body _

variable [Scalar α]

theorem exhausts_foldConstants (context : Context α) (r : Routine α) :
    (foldConstants : RoutinePass σ α).Exhausts context r := by
  refine exhausts_ofTransform (Block.Each (Inst.Rigid context.segments) none) (fun r h => ?_)
    (fun h => ?_) (Block.rigid_fold r.body _ _ _)
  · obtain ⟨hflag, hfold⟩ := Block.fold_of_rigid h
    exact ⟨hflag, congrArg Prod.fst hfold⟩
  · have hrigid : Block.Each (Inst.Rigid context.segments) none r.body := Block.rigid_of_silent h
    exact congrArg Prod.fst (Block.fold_of_rigid hrigid).2

theorem exhausts_packChunks (h : (Block.targets r.body).Nodup) (context : Context α) (width : Nat) :
    (packChunks width : RoutinePass σ α).Exhausts context r := by
  by_cases hw : width < 2
  · refine exhausts_ofTransform (fun _ => True) (fun r _ => ?_) (fun _ => ?_) trivial <;>
      simp [Routine.packChunks, hw]
  have hw0 : width ≠ 0 := by omega
  refine exhausts_ofTransform (fun body => Pack.Settled width (Pack.cutting body)) (fun r h => ?_)
    (fun h => ?_) ?_
  · simp [Routine.packChunks_eq hw, Pack.pack_of_settled h]
  · rw [Routine.packChunks_eq hw] at h ⊢
    exact Pack.pack_of_zero hw0 (by simpa using h)
  · rw [Routine.packChunks_eq hw]
    exact Pack.settled_pack hw0 h r.counted_sync

/-- Each of the passes on single routines tells exactly whether it changes an accepted one, and
leaves nothing for a further run. Packing alone rests on the checker. -/
theorem exhausts_of_check (h : r.check context = .ok ()) (width : Nat) :
    (foldConstants : RoutinePass σ α).Exhausts context r ∧
      (widenLoops width : RoutinePass σ α).Exhausts context r ∧
      (packChunks width : RoutinePass σ α).Exhausts context r ∧
      (sweep : RoutinePass σ α).Exhausts context r :=
  ⟨exhausts_foldConstants context r, exhausts_widenLoops context width r,
    exhausts_packChunks (Routine.check_eq_ok_iff.mp h).nodup context width,
    exhausts_sweep context r⟩

/-- Stores a sum of constants, goes on with a loop that two lanes leave one count of, and ends in a
pair of chunks and a load that nothing reads. -/
def mixing : Routine Float := .ofBody "mixing" .external [
  .load 0 (.fixed 1 0) 1, .binary 1 .add (.reg 0) (.imm 1), .store (.fixed 2 3) (.reg 1) 1,
  .loop 3 1 true [.load 2 ⟨0, 0, 1⟩ 1, .store ⟨2, 0, 1⟩ (.reg 2) 1],
  .load 3 (.fixed 0 4) 1, .store (.fixed 2 4) (.reg 3) 1, .load 4 (.fixed 0 5) 1,
  .store (.fixed 2 5) (.reg 4) 1, .load 5 (.fixed 0 0) 1]

def mixed : Program Float where
  name := "mixed"
  segments := #[.zeros "input" .input 6, ⟨"factor", .constant, #[3]⟩, .zeros "output" .output 6]
  routines := [mixing]

theorem exhausts_of_check_mixing : mixing.check mixed.context = .ok () ∧
    (((foldConstants : RoutinePass Unit Float).run mixed.context).run (mixing, ())).1 = .ok true ∧
    (((widenLoops 2 : RoutinePass Unit Float).run mixed.context).run (mixing, ())).1 = .ok true ∧
    (((packChunks 2 : RoutinePass Unit Float).run mixed.context).run (mixing, ())).1 = .ok true ∧
    (((sweep : RoutinePass Unit Float).run mixed.context).run (mixing, ())).1 = .ok true ∧
    (foldConstants : RoutinePass Unit Float).Exhausts mixed.context mixing ∧
    (widenLoops 2 : RoutinePass Unit Float).Exhausts mixed.context mixing ∧
    (packChunks 2 : RoutinePass Unit Float).Exhausts mixed.context mixing ∧
    (sweep : RoutinePass Unit Float).Exhausts mixed.context mixing := by
  have hc : mixing.check mixed.context = .ok () := by decide +kernel
  exact ⟨hc, by decide +kernel, by decide +kernel, by decide +kernel, by decide +kernel,
    exhausts_of_check hc 2⟩

def recycling : Routine Float := .ofBody "recycling" .external [
  .load 0 (.fixed 0 0) 1, .store (.fixed 2 0) (.reg 0) 1, .load 1 (.fixed 0 1) 1,
  .store (.fixed 2 1) (.reg 1) 1, .load 0 (.fixed 0 2) 1, .store (.fixed 2 2) (.imm 5) 1,
  .load 1 (.fixed 0 3) 1, .store (.fixed 2 3) (.imm 5) 1]

/-- Once the first pair of chunks is packed, nothing reads what the second pair sets, and a further
run packs it. -/
theorem not_exhausts_packChunks :
    recycling.check mixed.context = .error ⟨"recycling", .redefined 0⟩ ∧
    ¬ (packChunks 2 : RoutinePass Unit Float).Exhausts mixed.context recycling := by
  refine ⟨by decide +kernel, fun h => ?_⟩
  obtain ⟨_, _, hrun, -, hagain⟩ := h ()
  cases hrun
  obtain ⟨r'', hrun, -⟩ := hagain ()
  have hchanged : (((packChunks 2 : RoutinePass Unit Float).run mixed.context).run
      ((recycling.packChunks 2).1, ())).1 = .ok true := by decide +kernel
  have hunchanged := congrArg Prod.fst hrun
  cases hchanged.symm.trans hunchanged

end RoutinePass
end StreamStats
