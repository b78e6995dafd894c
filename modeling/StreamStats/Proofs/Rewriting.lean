import StreamStats.Proofs.Bundled
import StreamStats.Proofs.Pipeline

/-! Rewriting keeps checked programs checked. Each rewriting of a routine keeps what the checker
asks of it, and those of whole programs leave every callee in place; so any run of rewritings, with
or without checks in between, succeeds on a checked program and ends in one. -/

namespace StreamStats

open Check ExceptT

variable {α : Type} {context context' : Context α}

mutual

theorem Inst.Each.callees {P : Option Shape → Inst α → Prop} {names : List String}
    (h : ∀ shape callee, P shape (.call callee) → callee ∈ names) :
    ∀ {shape : Option Shape} {inst : Inst α}, inst.Each P shape → ∀ callee ∈ inst.callees,
    callee ∈ names
  | _, .call name, hi, callee, hc => by
    obtain rfl : callee = name := by simpa [Inst.callees] using hc
    exact h _ _ hi
  | _, .loop _ _ _ _, hi, callee, hc => Block.Each.callees h hi.2 callee hc
  | _, .load _ _ _, _, _, hc | _, .store _ _ _, _, _, hc | _, .binary _ _ _ _, _, _, hc => by
    simp [Inst.callees] at hc

theorem Block.Each.callees {P : Option Shape → Inst α → Prop} {names : List String}
    (h : ∀ shape callee, P shape (.call callee) → callee ∈ names) :
    ∀ {shape : Option Shape} {body : List (Inst α)}, Block.Each P shape body →
      ∀ callee ∈ Block.callees body, callee ∈ names
  | _, [], _, _, hc => by simp [Block.callees] at hc
  | _, _ :: _, hb, callee, hc =>
    (List.mem_append.mp hc).elim (Inst.Each.callees h hb.1 callee)
    (Block.Each.callees h hb.2 callee)

end

mutual

theorem Inst.Each.of_callees {P Q : Option Shape → Inst α → Prop} {names : List String}
    (h : ∀ shape inst, (∀ callee ∈ inst.callees, callee ∈ names) → P shape inst → Q shape inst) :
    ∀ {shape : Option Shape} {inst : Inst α}, (∀ callee ∈ inst.callees, callee ∈ names) →
      inst.Each P shape → inst.Each Q shape
  | _, .load _ _ _, hc, hp | _, .store _ _ _, hc, hp | _, .binary _ _ _ _, hc, hp | _, .call _, hc,
      hp => h _ _ hc hp
  | _, .loop _ _ _ _, hc, hp => ⟨h _ _ hc hp.1, Block.Each.of_callees h hc hp.2⟩

theorem Block.Each.of_callees {P Q : Option Shape → Inst α → Prop} {names : List String}
    (h : ∀ shape inst, (∀ callee ∈ inst.callees, callee ∈ names) → P shape inst → Q shape inst) :
    ∀ {shape : Option Shape} {body : List (Inst α)},
    (∀ callee ∈ Block.callees body, callee ∈ names) →
      Block.Each P shape body → Block.Each Q shape body
  | _, [], _, _ => trivial
  | _, _ :: _, hc, hp =>
    ⟨Inst.Each.of_callees h (fun callee hi => hc callee (List.mem_append_left _ hi)) hp.1,
      Block.Each.of_callees h (fun callee hi => hc callee (List.mem_append_right _ hi)) hp.2⟩

end

namespace Routine.Accepted

variable {r : Routine α}

theorem callees (h : r.Accepted context) : ∀ callee ∈ r.callees, callee ∈ context.routines := by
  obtain ⟨lanes, hl⟩ := h.admitted
  exact hl.callees fun _ _ hc => hc

theorem of_callees (hs : context'.segments = context.segments) (h : r.Accepted context)
    (hc : ∀ callee ∈ r.callees, callee ∈ context'.routines) : r.Accepted context' := by
  obtain ⟨lanes, hl⟩ := h.admitted
  refine ⟨⟨lanes, hl.of_callees (fun shape inst hi hp => ?_) hc⟩, h.reads, h.nodup⟩
  cases inst with
  | call callee => exact hi callee (by simp [Inst.callees])
  | load _ _ _ => exact ⟨hs ▸ hp.1, hp.2⟩
  | store _ _ _ => exact ⟨hs ▸ hp.1, hp.2⟩
  | _ => exact hp

end Routine.Accepted

namespace Program

variable {p : Program α}

theorem check_eq_ok_iff_accepted :
    p.check = .ok () ↔ p.routineNames.Nodup ∧ ∀ r ∈ p.routines, r.Accepted p.context := by
  simp only [check_eq_ok_iff, Routine.check_eq_ok_iff]

/-- Putting an accepted routine in the place of one of its name. -/
theorem check_setRoutine (h : p.check = .ok ()) {index : Nat} {r r' : Routine α}
    (hr : p.routines[index]? = some r) (hname : r'.name = r.name) (hr' : r'.Accepted p.context) :
    (p.setRoutine index r').check = .ok () := by
  rw [check_eq_ok_iff_accepted] at h ⊢
  have hnames : (p.setRoutine index r').routineNames = p.routineNames := by
    have hget : p.routineNames[index]? = some r'.name := by simp [routineNames, hr, hname]
    obtain ⟨hlt, hget⟩ := List.getElem?_eq_some_iff.mp hget
    show (p.routines.set index r').map Routine.name = _
    rw [List.map_set, ← hget]
    exact List.set_getElem_self hlt
  have hcontext : (p.setRoutine index r').context = p.context :=
    congrArg (Context.mk p.segments) hnames
  refine ⟨hnames ▸ h.1, fun r₁ hr₁ => hcontext ▸ ?_⟩
  rcases List.mem_or_eq_of_mem_set hr₁ with hr₁ | rfl
  · exact h.2 r₁ hr₁
  · exact hr'

theorem check_dropUnreachable (h : p.check = .ok ()) : p.dropUnreachable.check = .ok () := by
  rw [check_eq_ok_iff_accepted] at h ⊢
  refine ⟨(List.filter_sublist.map _).nodup h.1, fun r hr => ?_⟩
  have hsegments : p.dropUnreachable.context.segments = p.context.segments := rfl
  exact (h.2 r (List.mem_of_mem_filter hr)).of_callees hsegments
    (mem_names_of_called (fun r hr => (h.2 r hr).callees) h.1 hr)

theorem check_dropStores (h : p.check = .ok ()) : p.dropStores.check = .ok () := by
  rw [check_eq_ok_iff_accepted] at h ⊢
  have hnames : p.dropStores.routineNames = p.routineNames := by
    simp only [dropStores, routineNames, List.map_map]
    refine List.map_congr_left fun r _ => ?_
    simp only [Function.comp_apply, Routine.dropStores]
    split <;> rfl
  have hcontext : p.dropStores.context = p.context := congrArg (Context.mk p.segments) hnames
  refine ⟨hnames ▸ h.1, fun r' hr' => hcontext ▸ ?_⟩
  obtain ⟨r, hr, rfl⟩ := List.mem_map.mp hr'
  refine (h.2 r hr).dropStores fun s hs => Bool.eq_false_of_not_eq_true fun hu => ?_
  exact (mem_unread.mp (List.contains_iff_mem.mp hu)).2 r hr hs

theorem check_dropDeadStores (h : p.check = .ok ()) : p.dropDeadStores.check = .ok () := by
  induction p using dropDeadStores.induct with
  | case1 p next hlt ih =>
    rw [dropDeadStores, if_pos hlt]
    exact ih (check_dropStores h)
  | case2 p next hge => rwa [dropDeadStores, if_neg hge]

theorem checked_eq_ok (h : p.check = .ok ()) : p.checked = .ok () := by
  rw [checked, h]
  rfl

end Program

variable {σ : Type}

def RoutinePass.at (pass : RoutinePass σ α) (index : Nat) : ProgramPass σ α where
  name := pass.name
  run := do RoutineSchedule.runAt ⟨[pass], false⟩ (← get).1.context index

/-- A way to rewrite a program: at one of its routines or as a whole. -/
inductive Rewriting where
  | foldConstants (index : Nat)
  | packChunks (width index : Nat)
  | sweep (index : Nat)
  | dropUnreachable
  | dropDeadStores

namespace Rewriting

def pass [Scalar α] : Rewriting → ProgramPass σ α
  | foldConstants index => RoutinePass.foldConstants.at index
  | packChunks width index => (RoutinePass.packChunks width).at index
  | sweep index => RoutinePass.sweep.at index
  | dropUnreachable => .dropUnreachable
  | dropDeadStores => .dropDeadStores

end Rewriting

theorem ProgramPass.leads_at {name : String} {transform : Context α → Routine α → Routine α × Bool}
    (index : Nat) (hname : ∀ context r, (transform context r).1.name = r.name)
    (h : ∀ (context : Context α) (r : Routine α), r.Accepted context →
      (transform context r).1.Accepted context) :
    ((RoutinePass.ofTransform name transform : RoutinePass σ α).at index).Leads
      (fun p => p.check = .ok ()) (fun p => p.check = .ok ()) := by
  intro p world hp
  refine .bind (succeeds_get (.bind (succeeds_get ?_)))
  cases hr : p.routines[index]? with
  | none => exact succeeds_pure hp
  | some r =>
    have hrun : (RoutineSchedule.run ⟨[(RoutinePass.ofTransform name transform : RoutinePass σ α)],
      false⟩ p.context).Succeeds (r, world) fun _ t => t.1 = (transform p.context r).1 := by
      refine .bind (.bind (succeeds_get ?_))
      refine .bind (succeeds_set (succeeds_pure ?_))
      simp only [Bool.and_false, Bool.false_eq_true, if_false]
      exact .bind (succeeds_pure (succeeds_pure rfl))
    refine .bind (.onSnd (.within (hrun.imp ?_)))
    rintro changed ⟨r', world'⟩ rfl
    refine .bind (succeeds_modify (succeeds_ofExcept rfl ?_))
    exact Program.check_setRoutine hp hr (hname _ _)
      (h _ _ ((Program.check_eq_ok_iff_accepted.mp hp).2 r (List.mem_of_getElem? hr)))

variable [Scalar α]

theorem Rewriting.leads (rewriting : Rewriting) :
    (rewriting.pass : ProgramPass σ α).Leads (fun p => p.check = .ok ())
      (fun p => p.check = .ok ()) := by
  cases rewriting with
  | foldConstants index =>
    exact ProgramPass.leads_at index (fun _ _ => rfl) fun _ _ hr => hr.foldConstants
  | packChunks width index =>
    refine ProgramPass.leads_at index (fun _ r => ?_) fun _ _ hr => hr.packChunks width
    show (r.packChunks width).1.name = r.name
    unfold Routine.packChunks
    split <;> rfl
  | sweep index => exact ProgramPass.leads_at index (fun _ _ => rfl) fun _ _ hr => hr.sweep
  | dropUnreachable =>
    exact ProgramPass.leads_ofTransform (P := fun p => p.check = .ok ()) (Q := fun p =>
      p.check = .ok ()) fun _ hp => Program.check_dropUnreachable hp
  | dropDeadStores =>
    exact ProgramPass.leads_ofTransform (P := fun p => p.check = .ok ()) (Q := fun p =>
      p.check = .ok ()) fun _ hp => Program.check_dropDeadStores hp

def tripling : Program Float where
  name := "tripling"
  segments := #[.zeros "input" .input 4, .zeros "output" .output 4, ⟨"three", .constant, #[3]⟩,
    .zeros "spare" .scratch 2]
  routines := [
    .ofBody "clear" .internal [.store (.fixed 3 0) (.imm 0) 1],
    .ofBody "triple" .external [
      .load 0 (.fixed 2 0) 1,
      .load 1 (.fixed 0 0) 1, .binary 2 .mul (.reg 1) (.imm 3), .store (.fixed 1 0) (.reg 2) 1,
      .load 3 (.fixed 0 1) 1, .binary 4 .mul (.reg 3) (.imm 3), .store (.fixed 1 1) (.reg 4) 1,
      .loop 2 1 true [.load 5 ⟨0, 2, 1⟩ 1, .binary 6 .mul (.reg 5) (.reg 0),
        .store ⟨1, 2, 1⟩ (.reg 6) 1], .store (.fixed 3 1) (.reg 0) 1]]

end StreamStats
