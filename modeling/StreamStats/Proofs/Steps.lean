import StreamStats.Proofs.Safety
import StreamStats.Proofs.Tame

/-! Runs that succeed, step by step. Each instruction is described once by what its success says and
takes; from that follows what a run can change. -/

namespace StreamStats

variable {α : Type}

namespace Frame

def value? (f : Frame α) : Operand α → Option (List α)
  | .imm value => some [value]
  | .reg r => f.get? r

@[simp] theorem read_eq_ok_iff {f : Frame α} {name : String} {x : Operand α} {xs : List α} :
    f.read name x = .ok xs ↔ value? f x = some xs := by
  cases x with
  | imm v => simp [Frame.read, value?]
  | reg r =>
    simp only [Frame.read, value?]
    cases f.get? r <;> simp

theorem value?_congr {f g : Frame α} {x : Operand α}
    (h : ∀ r, x.reg? = some r → f.get? r = g.get? r) :
    value? f x = value? g x := by
  cases x with
  | imm _ => rfl
  | reg r => exact h r rfl

end Frame

namespace Exec

variable {β γ : Type}

@[simp] theorem bind_eq_ok_iff {x : Exec α β} {f : β → Exec α γ} {m m' : Memory α} {c : γ} :
    (x >>= f) m = .ok c m' ↔ ∃ b m₁, x m = .ok b m₁ ∧ f b m₁ = .ok c m' := by
  refine ⟨bind_eq_ok, ?_⟩
  rintro ⟨b, m₁, hx, hf⟩
  rw [bind_of_ok hx, hf]

@[simp] theorem lift_eq_ok_iff {x : Except Fault β} {b : β} {m m' : Memory α} :
    lift x m = .ok b m' ↔ x = .ok b ∧ m' = m := by
  cases x with
  | ok b' =>
    simp only [lift_ok_apply, EStateM.Result.ok.injEq, Except.ok.injEq]
    exact and_congr_right fun _ => eq_comm
  | error e => simp

theorem pure_eq_ok_iff {b b' : β} {m m' : Memory α} :
    (pure b : Exec α β) m = .ok b' m' ↔ b' = b ∧ m' = m := by
  simp only [pure_apply, EStateM.Result.ok.injEq]
  exact and_congr eq_comm eq_comm

@[simp] theorem store_eq_ok_iff {dst : Address} {count lanes : Nat} {values : List α}
    {m m' : Memory α} {u : Unit} :
    store dst count lanes values m = .ok u m' ↔ (values.length = 1 ∨ values.length = lanes) ∧
      m.Holds dst count lanes ∧ m' = Memory.writeFrom dst count 0 (stretch lanes values) m := by
  constructor
  · intro h
    by_cases hl : values.length = 1 ∨ values.length = lanes
    · by_cases hm : m.Holds dst count lanes
      · rw [store_of_holds hl hm] at h
        cases h
        exact ⟨hl, hm, rfl⟩
      · obtain ⟨s, i, n, m'', he⟩ := store_of_not_holds hl hm
        rw [he] at h
        cases h
    · rw [store_of_mismatch hl] at h
      cases h
  · rintro ⟨hl, hm, rfl⟩
    exact store_of_holds hl hm

variable [Scalar α]

@[simp] theorem load_eq_ok_iff {src : Address} {count lanes : Nat} {m m' : Memory α}
    {values : List α} :
    load src count lanes m = .ok values m' ↔ m.Holds src count lanes ∧
      values = (List.range lanes).map (m.valueAt src count) ∧ m' = m := by
  constructor
  · intro h
    by_cases hm : m.Holds src count lanes
    · rw [load_of_holds hm] at h
      cases h
      exact ⟨hm, rfl, rfl⟩
    · obtain ⟨s, i, n, m'', he⟩ := load_of_not_holds hm
      rw [he] at h
      cases h
  · rintro ⟨hm, rfl, rfl⟩
    exact load_of_holds hm

def After (P : β → Memory α → Prop) (x : Exec α β) (m : Memory α) : Prop :=
  ∀ b m', x m = .ok b m' → P b m'

omit [Scalar α] in
theorem After.bind {P : β → Memory α → Prop} {Q : γ → Memory α → Prop} {x : Exec α β}
    {f : β → Exec α γ} {m : Memory α} (h : After P x m) (hf : ∀ b m', P b m' → After Q (f b) m') :
    After Q (x >>= f) m := by
  intro c m' hc
  obtain ⟨b, m₁, hx, hb⟩ := bind_eq_ok hc
  exact hf b m₁ (h b m₁ hx) c m' hb

omit [Scalar α] in
theorem After.iterate {P : β → Memory α → Prop} {f : Nat → β → Exec α β} {step : Nat} (n : Nat) :
    ∀ (count : Nat) {b : β} {m : Memory α}, P b m →
      (∀ i < n, ∀ b m, P b m → After P (f (count + i * step) b) m) →
      After P (Exec.iterate f step n count b) m := by
  induction n with
  | zero =>
    intro count b m hb _ b' m' h
    obtain ⟨rfl, rfl⟩ := pure_eq_ok_iff.mp h
    exact hb
  | succ n ih =>
    intro count b m hb hf
    refine After.bind (by simpa using hf 0 (by omega) b m hb) fun b' m' hb' => ?_
    refine ih (count + step) hb' fun i hi b'' m'' hb'' => ?_
    have := hf (i + 1) (by omega) b'' m'' hb''
    rwa [Nat.add_mul, Nat.one_mul, Nat.add_comm (i * step), ← Nat.add_assoc] at this

/-- Wherever the one run ends, the other ends too, and both ends are related. -/
def Follows (P : β → Memory α → γ → Memory α → Prop) (x : Exec α β) (m : Memory α) (y : Exec α γ)
    (n : Memory α) : Prop :=
  ∀ b m', x m = .ok b m' → ∃ c n', y n = .ok c n' ∧ P b m' c n'

namespace Follows

variable {β' γ' : Type} {P : β → Memory α → γ → Memory α → Prop} {m n : Memory α}

omit [Scalar α]

theorem imp {Q : β → Memory α → γ → Memory α → Prop} {x : Exec α β} {y : Exec α γ}
    (h : Follows P x m y n) (hpq : ∀ b m' c n', P b m' c n' → Q b m' c n') : Follows Q x m y n := by
  intro b m' hx
  obtain ⟨c, n', hy, hp⟩ := h b m' hx
  exact ⟨c, n', hy, hpq _ _ _ _ hp⟩

theorem pure {b : β} {c : γ} (h : P b m c n) : Follows P (Pure.pure b) m (Pure.pure c) n := by
  intro b' m' hx
  obtain ⟨rfl, rfl⟩ := pure_eq_ok_iff.mp hx
  exact ⟨c, n, rfl, h⟩

theorem bind {Q : β' → Memory α → γ' → Memory α → Prop} {x : Exec α β} {y : Exec α γ}
    {f : β → Exec α β'} {g : γ → Exec α γ'} (h : Follows P x m y n)
    (hf : ∀ b m' c n', P b m' c n' → Follows Q (f b) m' (g c) n') :
    Follows Q (x >>= f) m (y >>= g) n := by
  intro b' m' hx
  obtain ⟨b, m₁, hx₁, hx₂⟩ := bind_eq_ok hx
  obtain ⟨c, n₁, hy₁, hp⟩ := h b m₁ hx₁
  obtain ⟨c', n', hy₂, hq⟩ := hf b m₁ c n₁ hp b' m' hx₂
  exact ⟨c', n', (bind_of_ok hy₁ g).trans hy₂, hq⟩

theorem of_ends {x : Exec α β} {y : Exec α γ} {b : β} {c : γ} {m' n' : Memory α}
    (hx : x m = .ok b m') (hy : y n = .ok c n') (h : P b m' c n') : Follows P x m y n := by
  intro b₁ m₁ hx₁
  rw [hx] at hx₁
  cases hx₁
  exact ⟨c, n', hy, h⟩

theorem bind_left {Q : β' → Memory α → γ → Memory α → Prop} {x : Exec α β} {f : β → Exec α β'}
    {y : Exec α γ} {P : β → Memory α → Prop} (h : After P x m)
    (hf : ∀ b m', P b m' → Follows Q (f b) m' y n) : Follows Q (x >>= f) m y n := by
  intro b' m' hx
  obtain ⟨b, m₁, hx₁, hx₂⟩ := bind_eq_ok hx
  exact hf b m₁ (h b m₁ hx₁) b' m' hx₂

theorem iterate {f : Nat → β → Exec α β} {g : Nat → γ → Exec α γ} {step : Nat} (k : Nat) :
    ∀ (count : Nat) {b : β} {c : γ} {m n : Memory α}, P b m c n →
      (∀ i < k, ∀ b m c n, P b m c n →
        Follows P (f (count + i * step) b) m (g (count + i * step) c) n) →
      Follows P (Exec.iterate f step k count b) m (Exec.iterate g step k count c) n := by
  induction k with
  | zero => exact fun _ _ _ _ _ h _ => Follows.pure h
  | succ k ih =>
    intro count b c m n h hf
    refine Follows.bind (by simpa using hf 0 (by omega) b m c n h) fun b' m' c' n' h' => ?_
    refine ih (count + step) h' fun i hi b'' m'' c'' n'' h'' => ?_
    have := hf (i + 1) (by omega) b'' m'' c'' n'' h''
    rwa [Nat.add_mul, Nat.one_mul, Nat.add_comm (i * step), ← Nat.add_assoc] at this

end Follows
end Exec

open Exec

variable [Scalar α] {call call' : String → Exec α Unit} {name name' : String} {count : Nat}

@[simp] theorem Block.exec_singleton {inst : Inst α} {f : Frame α} :
    Block.exec call name count [inst] f = Inst.exec call name count inst f := by
  simp [Block.exec]

namespace Inst

variable {f f' : Frame α} {m m' : Memory α}

@[simp] theorem exec_load_iff {dst : Reg} {src : Address} {n : Nat} :
    exec call name count (.load dst src n) f m = .ok f' m' ↔ m.Holds src count n ∧
      f' = f.set dst ((List.range n).map (m.valueAt src count)) ∧ m' = m := by
  simp only [exec, bind_eq_ok_iff, load_eq_ok_iff, pure_eq_ok_iff]
  constructor
  · rintro ⟨xs, m₁, ⟨hm, rfl, rfl⟩, rfl, rfl⟩
    exact ⟨hm, rfl, rfl⟩
  · rintro ⟨hm, rfl, rfl⟩
    exact ⟨_, _, ⟨hm, rfl, rfl⟩, rfl, rfl⟩

@[simp] theorem exec_store_iff {dst : Address} {x : Operand α} {n : Nat} :
    exec call name count (.store dst x n) f m = .ok f' m' ↔ ∃ xs, Frame.value? f x = some xs ∧
      (xs.length = 1 ∨ xs.length = n) ∧ m.Holds dst count n ∧ f' = f ∧
        m' = Memory.writeFrom dst count 0 (stretch n xs) m := by
  simp only [exec, bind_eq_ok_iff, lift_eq_ok_iff, Frame.read_eq_ok_iff, store_eq_ok_iff,
    pure_eq_ok_iff]
  constructor
  · rintro ⟨xs, m₁, ⟨hx, rfl⟩, u, m₂, ⟨hl, hm, rfl⟩, rfl, rfl⟩
    exact ⟨xs, hx, hl, hm, rfl, rfl⟩
  · rintro ⟨xs, hx, hl, hm, rfl, rfl⟩
    exact ⟨xs, _, ⟨hx, rfl⟩, (), _, ⟨hl, hm, rfl⟩, rfl, rfl⟩

@[simp] theorem exec_binary_iff {dst : Reg} {op : Arith} {x y : Operand α} :
    exec call name count (.binary dst op x y) f m = .ok f' m' ↔
    ∃ xs ys zs, Frame.value? f x = some xs ∧
      Frame.value? f y = some ys ∧ op.lanes xs ys = .ok zs ∧ f' = f.set dst zs ∧ m' = m := by
  simp only [exec, bind_eq_ok_iff, lift_eq_ok_iff, Frame.read_eq_ok_iff, pure_eq_ok_iff]
  constructor
  · rintro ⟨xs, _, ⟨hx, rfl⟩, ys, _, ⟨hy, rfl⟩, zs, _, ⟨hz, rfl⟩, rfl, rfl⟩
    exact ⟨xs, ys, zs, hx, hy, hz, rfl, rfl⟩
  · rintro ⟨xs, ys, zs, hx, hy, hz, rfl, rfl⟩
    exact ⟨xs, _, ⟨hx, rfl⟩, ys, _, ⟨hy, rfl⟩, zs, _, ⟨hz, rfl⟩, rfl, rfl⟩

@[simp] theorem exec_call_iff {callee : String} :
    exec call name count (.call callee) f m = .ok f' m' ↔ f' = f ∧ call callee m = .ok () m' := by
  simp only [exec, bind_eq_ok_iff, pure_eq_ok_iff]
  constructor
  · rintro ⟨_, _, h, rfl, rfl⟩
    exact ⟨rfl, h⟩
  · rintro ⟨rfl, h⟩
    exact ⟨_, _, h, rfl, rfl⟩

@[simp] theorem exec_loop {trips step : Nat} {parallel : Bool} {body : Block α} :
    exec call name count (.loop trips step parallel body) f =
      Exec.iterate (fun count f => Block.exec call name count body f) (max step 1)
        (iterations trips (max step 1)) 0 f := by
  simp only [exec]

theorem exec_loop_of_ne_zero {trips step : Nat} (h : step ≠ 0) {parallel : Bool} {body : Block α} :
    exec call name count (.loop trips step parallel body) f =
      Exec.iterate (fun count f => Block.exec call name count body f) step
        (iterations trips step) 0 f := by
  rw [exec_loop, Nat.max_eq_left (Nat.pos_of_ne_zero h)]

def Writes (segments : Array (Segment α)) (_ : Option Check.Shape) : Inst α → Prop
  | .store dst _ _ => ∃ s, segments[dst.segment]? = some s ∧ s.role.isWritable = true
  | _ => True

omit [Scalar α] in
theorem writes_of_legal {context : Context α} {lanes : Reg → Nat} {shape : Option Check.Shape}
    {inst : Inst α} (h : inst.Legal context lanes shape) : inst.Writes context.segments shape := by
  cases inst with
  | store dst src n =>
    obtain ⟨s, hs, hw, -⟩ := h.1.segment
    exact ⟨s, hs, hw rfl⟩
  | _ => trivial

variable {context : Context α} {S : Set α} {info : Reg → Info α} {shape : Option Check.Shape}

theorem Plain.writes {inst : Inst α} (h : inst.Plain context S info shape) :
    inst.Each (Writes context.segments) shape :=
  h.legal.imp fun _ _ => writes_of_legal

theorem Tame.writes {inst : Inst α} (h : inst.Tame context S info) :
    inst.Each (Writes context.segments) none := by
  cases inst with
  | load dst src n => trivial
  | store dst x n => exact Plain.writes (show Plain context S info none (.store dst x n) from h)
  | binary dst op x y => trivial
  | call callee => trivial
  | loop trips step parallel body =>
    obtain ⟨-, inner, hplain⟩ := h
    exact ⟨trivial, Block.each_iff.mpr fun inst hi => (hplain inst hi).writes⟩

end Inst

mutual

/-- A run leaves registers that it does not set as they are. -/
theorem Inst.exec_frame :
    ∀ {inst : Inst α} {count : Nat} {f : Frame α} {m : Memory α},
      After (fun f' _ => ∀ r ∉ inst.targets, f'.get? r = f.get? r) (inst.exec call name count f) m
  | .load dst src n, count, f, m => by
    intro f' m' h r hr
    obtain ⟨-, rfl, -⟩ := Inst.exec_load_iff.mp h
    rw [RegMap.get?_set, if_neg (by simpa [Inst.targets] using hr)]
  | .store dst x n, count, f, m => by
    intro f' m' h r _
    obtain ⟨xs, -, -, -, rfl, -⟩ := Inst.exec_store_iff.mp h
    rfl
  | .binary dst op x y, count, f, m => by
    intro f' m' h r hr
    obtain ⟨xs, ys, zs, -, -, -, rfl, -⟩ := Inst.exec_binary_iff.mp h
    rw [RegMap.get?_set, if_neg (by simpa [Inst.targets] using hr)]
  | .call callee, count, f, m => by
    intro f' m' h r _
    obtain ⟨rfl, -⟩ := Inst.exec_call_iff.mp h
    rfl
  | .loop trips step parallel body, count, f, m => by
    rw [Inst.exec_loop]
    refine After.iterate _ 0 (fun _ _ => rfl) fun i _ g m' hg => ?_
    intro f' m'' h r hr
    exact (Block.exec_frame f' m'' h r hr).trans (hg r hr)

theorem Block.exec_frame :
    ∀ {body : List (Inst α)} {count : Nat} {f : Frame α} {m : Memory α},
      After (fun f' _ => ∀ r ∉ Block.targets body, f'.get? r = f.get? r)
        (Block.exec call name count body f) m
  | [], count, f, m => by
    intro f' m' h r _
    obtain ⟨rfl, -⟩ := pure_eq_ok_iff.mp h
    rfl
  | inst :: rest, count, f, m => by
    simp only [Block.exec]
    refine After.bind Inst.exec_frame fun g m₁ hg => ?_
    intro f' m' h r hr
    rw [Block.targets, List.mem_append, not_or] at hr
    exact (Block.exec_frame f' m' h r hr.2).trans (hg r hr.1)

end

end StreamStats
