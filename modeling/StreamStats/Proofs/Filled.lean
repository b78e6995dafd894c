import StreamStats.Proofs.Steps

/-! Values in the place of registers. Code in which registers that hold a known single value are
replaced by the value does what the code does, as long as it does not set them. -/

namespace StreamStats

open Exec

variable {α : Type}

namespace Exec

variable {β γ : Type}

theorem bind_congr_of_ok {x y : Exec α β} {f g : β → Exec α γ} {m : Memory α} (h : x m = y m)
    (hfg : ∀ b m', y m = .ok b m' → f b m' = g b m') : (x >>= f) m = (y >>= g) m := by
  cases hy : y m with
  | ok b m' => rw [bind_of_ok (h.trans hy), bind_of_ok hy, hfg b m' hy]
  | error e m' => rw [bind_of_error (h.trans hy), bind_of_error hy]

theorem iterate_congr {P : β → Prop} {f g : Nat → β → Exec α β} {step : Nat}
    (h : ∀ count b m, P b → f count b m = g count b m)
    (hP : ∀ count b m, P b → After (fun b' _ => P b') (g count b) m) (n : Nat) :
    ∀ (count : Nat) {b : β} {m : Memory α}, P b →
      Exec.iterate f step n count b m = Exec.iterate g step n count b m := by
  induction n with
  | zero => exact fun _ _ _ _ => rfl
  | succ n ih =>
    intro count b m hb
    exact bind_congr_of_ok (h count b m hb) fun b' m' hx =>
      ih (count + step) (hP count b m hb b' m' hx)

end Exec

/-- A register that is known to hold a single value gives way to the value. -/
def Operand.fill (values : Reg → Option α) : Operand α → Operand α
  | reg r => (values r).elim (reg r) imm
  | imm value => imm value

/-- A frame holds the single values that are known. -/
def Frame.Has (values : Reg → Option α) (f : Frame α) : Prop :=
  ∀ r v, values r = some v → f.get? r = some [v]

namespace Frame.Has

variable {values : Reg → Option α} {f f' : Frame α}

theorem read (h : f.Has values) (name : String) (x : Operand α) :
    f.read name (x.fill values) = f.read name x := by
  cases x with
  | imm _ => rfl
  | reg r =>
    cases hv : values r with
    | none => simp [Operand.fill, hv]
    | some v => simp [Operand.fill, hv, Frame.read, h r v hv]

theorem keep (h : f.Has values) {set : List Reg} (hs : ∀ t ∈ set, values t = none)
    (hf : ∀ r ∉ set, f'.get? r = f.get? r) : f'.Has values := by
  intro r v hv
  rw [hf r fun hr => ?_]
  · exact h r v hv
  · rw [hs r hr] at hv
    cases hv

end Frame.Has

section Runs

variable [Scalar α] {call : String → Exec α Unit} {name : String} {values : Reg → Option α}

mutual

theorem Inst.exec_fill :
    ∀ {inst : Inst α} {count : Nat} {f : Frame α} {m : Memory α},
    (∀ t ∈ inst.targets, values t = none) →
      f.Has values → (inst.mapOperands (Operand.fill values)).exec call name count f m =
        inst.exec call name count f m
  | .load _ _ _, _, _, _, _, _ => by simp only [Inst.mapOperands]
  | .store _ x _, _, _, _, _, hf => by simp only [Inst.mapOperands, Inst.exec, hf.read name x]
  | .binary _ _ x y, _, _, _, _, hf =>
    by simp only [Inst.mapOperands, Inst.exec, hf.read name x, hf.read name y]
  | .call _, _, _, _, _, _ => by simp only [Inst.mapOperands]
  | .loop trips step parallel body, count, f, m, ht, hf => by
    rw [Inst.mapOperands, Inst.exec_loop, Inst.exec_loop]
    refine iterate_congr (P := Frame.Has values) (fun count f m hf => Block.exec_fill ht hf)
      (fun count f m hf => ?_) _ 0 hf
    exact fun f' m' hx => hf.keep ht (Block.exec_frame f' m' hx)

/-- Filling in values changes nothing where the registers hold them. -/
theorem Block.exec_fill :
    ∀ {body : List (Inst α)} {count : Nat} {f : Frame α} {m : Memory α},
    (∀ t ∈ Block.targets body, values t = none) → f.Has values →
      Block.exec call name count (Block.mapOperands (Operand.fill values) body) f m =
        Block.exec call name count body f m
  | [], _, _, _, _, _ => rfl
  | inst :: rest, _, _, _, ht, hf => by
    have hti : ∀ t ∈ inst.targets, values t = none := fun t h => ht t (List.mem_append_left _ h)
    simp only [Block.mapOperands, Block.exec]
    refine bind_congr_of_ok (Inst.exec_fill hti hf) fun f' m' hx => ?_
    exact Block.exec_fill (fun t h => ht t (List.mem_append_right _ h))
      (hf.keep hti (Inst.exec_frame f' m' hx))

end

end Runs

@[simp] theorem Operand.fill_none (x : Operand α) : x.fill (fun _ => none) = x := by cases x <;> rfl

mutual

theorem Inst.mapOperands_eq_self {φ : Operand α → Operand α} (h : ∀ x, φ x = x) :
    ∀ inst : Inst α, inst.mapOperands φ = inst
  | .load _ _ _ | .call _ => rfl
  | .store _ _ _ => by rw [Inst.mapOperands, h]
  | .binary _ _ _ _ => by rw [Inst.mapOperands, h, h]
  | .loop _ _ _ body => by rw [Inst.mapOperands, Block.mapOperands_eq_self h body]

theorem Block.mapOperands_eq_self {φ : Operand α → Operand α} (h : ∀ x, φ x = x) :
    ∀ body : List (Inst α), Block.mapOperands φ body = body
  | [] => rfl
  | inst :: rest =>
    by rw [Block.mapOperands, Inst.mapOperands_eq_self h inst, Block.mapOperands_eq_self h rest]

end

theorem Block.mapOperands_eq_map (φ : Operand α → Operand α) (body : List (Inst α)) :
    Block.mapOperands φ body = body.map (Inst.mapOperands φ) := by
  induction body with
  | nil => rfl
  | cons inst rest ih => rw [mapOperands, ih, List.map_cons]

end StreamStats
