import Mathlib.Data.Set.Function
import StreamStats.Proofs.Swept
import StreamStats.Proofs.Uses

/-! Registers of any code under other names. Whatever the code is, checked or not, a routine whose
registers have been given other names does what it did, from any memory: as long as no two of its
registers fall together, nothing but the number of a register in a fault tells the names. -/

namespace StreamStats

open Exec

variable {α : Type}

/-- The fault without the number of the register that it names. -/
def Fault.unnumbered : Fault → Fault
  | .undefinedRegister routine _ => .undefinedRegister routine 0
  | e => e

namespace Exec

variable {β γ : Type}

def unnumbered : EStateM.Result Fault (Memory α) β → EStateM.Result Fault (Memory α) β
  | .ok b m => .ok b m
  | .error e m => .error e.unnumbered m

end Exec

def Likeness.unnumbered : Likeness α :=
  ⟨True, fun e e' => e.unnumbered = e'.unnumbered, fun _ => True, fun _ => rfl⟩

theorem Exec.Mirrors.eq_of_unnumbered {r r' : EStateM.Result Fault (Memory α) Unit}
    {P : Unit → Unit → Prop} (h : Mirrors .unnumbered P r r') : unnumbered r' = unnumbered r := by
  cases h with
  | ok _ _ => rfl
  | @error e e' m fault _ =>
    have hfault : e.unnumbered = e'.unnumbered := fault
    rw [unnumbered, unnumbered, hfault]
  | lax h => exact absurd trivial h

theorem Operand.reads_iff {x : Operand α} {V : Set Reg} :
    x.Reads V ↔ ∀ r ∈ x.reg?.toList, r ∈ V := by
  cases x with
  | reg r => simp [Reads, reg?]
  | imm _ => simp [Reads, reg?]

mutual

theorem Inst.scoped_of_mentions :
    ∀ {inst : Inst α} {V : Set Reg}, (∀ r ∈ inst.mentions, r ∈ V) → inst.Scoped false V
  | .load _ _ _, _, _ | .call _, _, _ => trivial
  | .store _ _ _, _, h => Operand.reads_iff.mpr h
  | .binary _ _ _ _, _, h =>
    ⟨Operand.reads_iff.mpr fun r hr => h r (List.mem_cons_of_mem _ (List.mem_append_left _ hr)),
      Operand.reads_iff.mpr fun r hr => h r (List.mem_cons_of_mem _ (List.mem_append_right _ hr))⟩
  | .loop _ _ _ body, V, h => by
    have hbody : Block.Scoped false V body := Block.scoped_of_mentions h
    simpa [Inst.Scoped] using hbody

theorem Block.scoped_of_mentions :
    ∀ {body : List (Inst α)} {V : Set Reg}, (∀ r ∈ Block.mentions body, r ∈ V) →
    Block.Scoped false V body
  | [], _, _ => trivial
  | inst :: _, V, h =>
    ⟨Inst.scoped_of_mentions fun r hr => h r (List.mem_append_left _ hr),
      Block.scoped_of_mentions fun r hr => inst.subset_define V (h r (List.mem_append_right _ hr))⟩

end

@[simp] theorem Inst.keeps_unnumbered {shape : Option Check.Shape} {inst : Inst α} :
    inst.Keeps (Likeness.unnumbered (α := α)).memories shape := by
  cases inst with
  | store _ _ _ => exact fun _ _ _ _ => trivial
  | _ => trivial

namespace Routine

def rename (f : Reg → Reg) (r : Routine α) : Routine α :=
  { r with body := r.body.map (Inst.rename f) }

@[simp] theorem rename_id (r : Routine α) : r.rename id = r := by
  rw [rename, ← Block.rename_eq_map, Block.rename_id]

variable [Scalar α]

/-- A routine does alike under names for its registers that are told apart. -/
theorem mirrors_rename {r : Routine α} {f : Reg → Reg}
    (hf : Set.InjOn f {t | t ∈ Block.mentions r.body}) :
    r.Mirrors .unnumbered (r.rename f) := by
  refine ⟨rfl, fun call call' hcall m _ => ?_⟩
  have hmem : ∀ t, t ∈ {t | t ∈ Block.mentions r.body} ∨ t ∈ Block.targets r.body →
      t ∈ Block.mentions r.body := fun t ht => ht.elim id (Block.targets_subset_mentions r.body t)
  have hnames : ∀ t,
      Likeness.unnumbered.faults (α := α) (.undefinedRegister r.name t)
        (.undefinedRegister r.name (f t)) :=
    fun _ => rfl
  -- at the start no register holds anything, so the two frames are alike on all that is mentioned
  have hempty : Frame.Renames f {t | t ∈ Block.mentions r.body}
      (RegMap.empty : Frame α) RegMap.empty :=
    fun _ _ => by rw [RegMap.get?_empty, RegMap.get?_empty]
  have hkeeps : Block.Each (Inst.Keeps (Likeness.unnumbered (α := α)).memories) none r.body :=
    Block.each_of_forall fun _ _ => Inst.keeps_unnumbered
  rw [rename, ← Block.rename_eq_map]
  exact (Block.mirrors_rename hcall hnames hkeeps (Block.scoped_of_mentions fun _ ht => ht)
    (fun t ht t' ht' he => hf (hmem t ht) (hmem t' (Or.inr ht')) he) hempty trivial).imp
    fun _ _ _ => trivial

@[simp] theorem mirrors_self_unnumbered (r : Routine α) : r.Mirrors .unnumbered r := by
  have h := mirrors_rename (r := r) (f := id) (Set.injOn_id _)
  rwa [rename_id] at h

end Routine

variable [Scalar α]

namespace Program

/-- Nobody sees how a routine calls its registers. A call of any routine, at any depth and from any
memory, ends in the same memory when they get other names, and it succeeds as well or fails alike,
but for the number of a register. -/
theorem renameAt_unseen (p : Program α) (index : Nat) (f : Reg → Reg)
    (hf : ∀ r, p.routines[index]? = some r → Set.InjOn f {t | t ∈ Block.mentions r.body}) :
    (∀ depth name m,
      unnumbered ((p.rewriteAt index (.rename f)).call depth name m) =
        unnumbered (p.call depth name m)) ∧
    ∀ (memory : Memory α) (runs : Nat) (name : String),
      ((Machine.mk (p.rewriteAt index (.rename f)) memory runs).call name).1.mapError
        Fault.unnumbered = ((Machine.mk p memory runs).call name).1.mapError Fault.unnumbered ∧
      ((Machine.mk (p.rewriteAt index (.rename f)) memory runs).call name).2.memory =
        ((Machine.mk p memory runs).call name).2.memory := by
  have hroutines : List.Forall₂ (Routine.Mirrors .unnumbered) p.routines
      (p.rewriteAt index (.rename f)).routines :=
    forall₂_modify_self (fun r _ => r.mirrors_self_unnumbered) fun r hr =>
      Routine.mirrors_rename (hf r hr)
  have hcalls : ∀ depth name m,
      unnumbered ((p.rewriteAt index (.rename f)).call depth name m) =
        unnumbered (p.call depth name m) :=
    fun depth name m => (callsMirror hroutines depth name m trivial).eq_of_unnumbered
  refine ⟨hcalls, fun memory runs name => ?_⟩
  have hcall := hcalls callLimit name memory
  simp only [Machine.call]
  generalize p.call callLimit name memory = x at hcall
  generalize (p.rewriteAt index (.rename f)).call callLimit name memory = y at hcall
  cases x <;> cases y <;> simp_all [unnumbered, Except.mapError]

/-- One routine has loops that nest and calls itself out of the inner one, as deep as calls go; the
other reads what nothing sets, after it has stored. -/
def wandering : Program Float where
  name := "wandering"
  segments := #[.zeros "state" .state 2]
  routines := [
    .ofBody "winding" .external [
      .load 0 (.fixed 0 1) 1,
      .loop 2 1 false [
        .binary 1 .add (.reg 0) (.imm 1),
        .loop 2 0 false [.store ⟨0, 0, 1⟩ (.reg 1) 1, .load 0 (.fixed 0 0) 1, .call "winding"]]],
    .ofBody "missing" .external [
      .loop 2 1 false [.store ⟨0, 0, 1⟩ (.imm 5) 1],
      .binary 2 .mul (.reg 3) (.reg 2)]]

theorem renameAt_unseen_wandering :
    (∀ r, wandering.routines[0]? = some r → Set.InjOn (1 - ·) {t | t ∈ Block.mentions r.body}) ∧
      (∀ r, wandering.routines[1]? = some r → Set.InjOn (3 - ·) {t | t ∈ Block.mentions r.body}) ∧
      ¬ Function.Injective (fun t : Nat => 3 - t) ∧
      ((Machine.ofProgram wandering).call "winding").1 = .error .callDepth ∧
      ((Machine.ofProgram wandering).call "missing").1 = .error (.undefinedRegister "missing" 3) ∧
      ((Machine.ofProgram (wandering.rewriteAt 1 (.rename (3 - ·)))).call "missing").1 =
        .error (.undefinedRegister "missing" 0) ∧
      ∀ (memory : Memory Float) (name : String),
        ((Machine.mk (wandering.rewriteAt 0 (.rename (1 - ·))) memory 0).call name).2.memory =
          ((Machine.mk wandering memory 0).call name).2.memory ∧
        ((Machine.mk (wandering.rewriteAt 1 (.rename (3 - ·))) memory 0).call name).2.memory =
          ((Machine.mk wandering memory 0).call name).2.memory := by
  have hwinding : ∀ r, wandering.routines[0]? = some r →
      Set.InjOn (1 - ·) {t | t ∈ Block.mentions r.body} := by
    rintro r hr
    obtain rfl := Option.some.inj hr
    have hall : ∀ t ∈ [0, 1, 0, 1, 0], ∀ t' ∈ [0, 1, 0, 1, 0], 1 - t = 1 - t' → t = t' := by decide
    exact fun t ht t' ht' he => hall t ht t' ht' he
  have hmissing : ∀ r, wandering.routines[1]? = some r →
      Set.InjOn (3 - ·) {t | t ∈ Block.mentions r.body} := by
    rintro r hr
    obtain rfl := Option.some.inj hr
    have hall : ∀ t ∈ [2, 3, 2], ∀ t' ∈ [2, 3, 2], 3 - t = 3 - t' → t = t' := by decide
    exact fun t ht t' ht' he => hall t ht t' ht' he
  refine ⟨hwinding, hmissing, fun h => absurd (h (show 3 - 3 = 3 - 4 from rfl)) (by decide),
    by decide +kernel, by decide +kernel, by decide +kernel, fun memory name => ⟨?_, ?_⟩⟩
  · exact ((renameAt_unseen wandering 0 (1 - ·) hwinding).2 memory 0 name).2
  · exact ((renameAt_unseen wandering 1 (3 - ·) hmissing).2 memory 0 name).2

end Program
end StreamStats
