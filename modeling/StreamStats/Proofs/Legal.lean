import StreamStats.Check
import StreamStats.Proofs.Address

/-! Well-formed code without a checker's state. What the checker asks of a routine comes apart into
what it asks of each instruction, given the lanes of every register; the order of settings and
readings; and that no register is set twice. A register may hold a single value where more lanes are
expected, so that rewriting can narrow values without a change to what is expected. -/

namespace StreamStats

open Check

variable {α : Type}

namespace Check

/-- The counts that a loop runs at; code outside of loops runs at zero. -/
def AtCount : Option Shape → Nat → Prop
  | none, count => count = 0
  | some shape, count => ∃ i < shape.iterations, count = i * shape.step

/-- How many places in a row an access covers, all counts taken together. -/
def span : Option Shape → Nat → Nat
  | none, lanes => lanes
  | some shape, lanes =>
    if shape.iterations = 0 then 0 else (shape.iterations - 1) * shape.step + lanes

theorem AtCount.lt_span {shape : Option Shape} {count lane lanes : Nat} (h : AtCount shape count)
    (hl : lane < lanes) : count + lane < span shape lanes := by
  cases shape with
  | none =>
    have : count = 0 := h
    simpa [span, this] using hl
  | some shape =>
    obtain ⟨i, hi, rfl⟩ := h
    have h0 : shape.iterations ≠ 0 := by omega
    have h1 : i * shape.step ≤ (shape.iterations - 1) * shape.step :=
      Nat.mul_le_mul_right _ (by omega)
    simp only [span, if_neg h0]
    omega

/-- An access is allowed: it covers places of one segment, and in a loop as many as one step. -/
structure Reaches (segments : Array (Segment α)) (shape : Option Shape) (a : Address) (lanes : Nat)
    (writes : Bool) : Prop where
  lanes_ne_zero : lanes ≠ 0
  lanes_eq_step : ∀ l, shape = some l → a.stride ≠ 0 → lanes = l.step
  segment : ∃ s, segments[a.segment]? = some s ∧ (writes = true → s.role.isWritable = true) ∧
    a.Within s.size (span shape lanes)

end Check

namespace Operand

def Reads (V : Set Reg) : Operand α → Prop
  | reg r => r ∈ V
  | imm _ => True

def width (lanes : Reg → Nat) : Operand α → Nat
  | reg r => lanes r
  | imm _ => 1

theorem Reads.mono {V W : Set Reg} (h : V ⊆ W) {x : Operand α} (hx : x.Reads V) : x.Reads W := by
  cases x with
  | reg r => exact h hx
  | imm _ => trivial

end Operand

def Inst.Legal (context : Context α) (lanes : Reg → Nat) (shape : Option Shape) : Inst α → Prop
  | .load dst src n => Reaches context.segments shape src n false ∧ (n = 1 ∨ n = lanes dst)
  | .store dst src n =>
    Reaches context.segments shape dst n true ∧ (src.width lanes = 1 ∨ src.width lanes = n)
  | .binary dst _ lhs rhs =>
    (lhs.width lanes = rhs.width lanes ∨ lhs.width lanes = 1 ∨ rhs.width lanes = 1) ∧
      (max (lhs.width lanes) (rhs.width lanes) = 1 ∨
        max (lhs.width lanes) (rhs.width lanes) = lanes dst)
  | .call callee => callee ∈ context.routines
  | .loop _ step _ _ => shape = none ∧ step ≠ 0

/-- What the checker asks of one instruction, given the lanes of the registers. As it looks at the
ends of an access only, places in between may lie elsewhere where words run over. -/
def Inst.Admitted (context : Context α) (lanes : Reg → Nat) (shape : Option Shape) : Inst α → Prop
  | .load dst src n => access context.segments shape src n false = .ok () ∧ (n = 1 ∨ n = lanes dst)
  | .store dst src n =>
    access context.segments shape dst n true = .ok () ∧ (src.width lanes = 1 ∨ src.width lanes = n)
  | .binary dst _ lhs rhs =>
    (lhs.width lanes = rhs.width lanes ∨ lhs.width lanes = 1 ∨ rhs.width lanes = 1) ∧
      (max (lhs.width lanes) (rhs.width lanes) = 1 ∨
        max (lhs.width lanes) (rhs.width lanes) = lanes dst)
  | .call callee => callee ∈ context.routines
  | .loop _ step _ _ => shape = none ∧ step ≠ 0

/-- The registers that can be read behind an instruction. -/
def Inst.define (inst : Inst α) (V : Set Reg) : Set Reg := {r | r ∈ V ∨ inst.target? = some r}

@[simp] theorem Inst.mem_define {inst : Inst α} {V : Set Reg} {r : Reg} :
    r ∈ inst.define V ↔ r ∈ V ∨ inst.target? = some r := Iff.rfl

@[simp] theorem Inst.subset_define (inst : Inst α) (V : Set Reg) : V ⊆ inst.define V :=
  fun _ => Or.inl

@[simp] theorem Inst.define_eq_id (inst : Inst α) (h : inst.target? = none) : inst.define = id := by
  funext V
  simp [define, h]

theorem Inst.define_mono (inst : Inst α) {V W : Set Reg} (h : V ⊆ W) :
    inst.define V ⊆ inst.define W := fun _ hr => hr.imp_left (h ·)

mutual

def Inst.Each (P : Option Shape → Inst α → Prop) (shape : Option Shape) : Inst α → Prop
  | .load dst src lanes => P shape (.load dst src lanes)
  | .store dst src lanes => P shape (.store dst src lanes)
  | .binary dst op lhs rhs => P shape (.binary dst op lhs rhs)
  | .call callee => P shape (.call callee)
  | .loop trips step parallel body =>
    P shape (.loop trips step parallel body) ∧
    Block.Each P (some ⟨iterations trips step, step⟩) body

def Block.Each (P : Option Shape → Inst α → Prop) (shape : Option Shape) : List (Inst α) → Prop
  | [] => True
  | inst :: rest => Inst.Each P shape inst ∧ Block.Each P shape rest

end

mutual

instance Inst.decidableEach
    {P : Option Shape → Inst α → Prop} [∀ shape inst, Decidable (P shape inst)] :
    ∀ (shape : Option Shape) (inst : Inst α), Decidable (inst.Each P shape)
  | shape, .load dst src lanes => inferInstanceAs (Decidable (P shape (.load dst src lanes)))
  | shape, .store dst src lanes => inferInstanceAs (Decidable (P shape (.store dst src lanes)))
  | shape, .binary dst op lhs rhs => inferInstanceAs (Decidable (P shape (.binary dst op lhs rhs)))
  | shape, .call callee => inferInstanceAs (Decidable (P shape (.call callee)))
  | shape, .loop trips step parallel body =>
    have := Block.decidableEach (P := P) (some ⟨iterations trips step, step⟩) body
    inferInstanceAs (Decidable (P shape (.loop trips step parallel body) ∧ _))

instance Block.decidableEach
    {P : Option Shape → Inst α → Prop} [∀ shape inst, Decidable (P shape inst)] :
    ∀ (shape : Option Shape) (body : List (Inst α)), Decidable (Block.Each P shape body)
  | _, [] => .isTrue trivial
  | shape, inst :: rest =>
    have := Inst.decidableEach (P := P) shape inst
    have := Block.decidableEach (P := P) shape rest
    inferInstanceAs (Decidable (_ ∧ _))

end

mutual

/-- Only registers that were set are read; one set in a loop is not seen behind it. In closed code
loops see none from outside. -/
def Inst.Scoped (closed : Bool) (V : Set Reg) : Inst α → Prop
  | .load _ _ _ | .call _ => True
  | .store _ src _ => src.Reads V
  | .binary _ _ lhs rhs => lhs.Reads V ∧ rhs.Reads V
  | .loop _ _ _ body => Block.Scoped closed (if closed then ∅ else V) body

def Block.Scoped (closed : Bool) (V : Set Reg) : List (Inst α) → Prop
  | [] => True
  | inst :: rest => Inst.Scoped closed V inst ∧ Block.Scoped closed (inst.define V) rest

end

mutual

def Inst.targets : Inst α → List Reg
  | .load dst _ _ | .binary dst _ _ _ => [dst]
  | .store _ _ _ | .call _ => []
  | .loop _ _ _ body => Block.targets body

def Block.targets : List (Inst α) → List Reg
  | [] => []
  | inst :: rest => Inst.targets inst ++ Block.targets rest

end

theorem Inst.targets_of_target? {inst : Inst α} {r : Reg} (h : inst.target? = some r) :
    inst.targets = [r] := by
  cases inst <;> simp_all [Inst.target?, Inst.targets]

theorem Inst.mem_targets_of_target? {inst : Inst α} {r : Reg} (h : inst.target? = some r) :
    r ∈ inst.targets := by
  simp [Inst.targets_of_target? h]

namespace Block

def define (body : Block α) (V : Set Reg) : Set Reg := body.foldl (fun V inst => inst.define V) V

@[simp] theorem define_nil (V : Set Reg) : define ([] : Block α) V = V := rfl

@[simp] theorem define_cons (inst : Inst α) (body : Block α) (V : Set Reg) :
    define (inst :: body) V = define body (inst.define V) := rfl

@[simp] theorem define_append (body rest : Block α) (V : Set Reg) :
    define (body ++ rest) V = define rest (define body V) := by
  simp [define]

@[simp] theorem mem_define {body : Block α} {V : Set Reg} {r : Reg} :
    r ∈ define body V ↔ r ∈ V ∨ ∃ inst ∈ body, inst.target? = some r := by
  induction body generalizing V with
  | nil => simp
  | cons inst body ih => simp [ih, or_assoc]

@[simp] theorem subset_define (body : Block α) (V : Set Reg) : V ⊆ define body V :=
  fun _ hr => mem_define.mpr (Or.inl hr)

@[simp] theorem each_append {P : Option Shape → Inst α → Prop} {shape : Option Shape}
    {body rest : Block α} :
    Each P shape (body ++ rest) ↔ Each P shape body ∧ Each P shape rest := by
  induction body with
  | nil => simp [Each]
  | cons inst body ih => simp [Each, ih, and_assoc]

theorem each_iff {P : Option Shape → Inst α → Prop} {shape : Option Shape} {body : Block α} :
    Each P shape body ↔ ∀ inst ∈ body, inst.Each P shape := by
  induction body with
  | nil => simp [Each]
  | cons inst body ih => simp [Each, ih]

@[simp] theorem scoped_append {closed : Bool} {V : Set Reg} {body rest : Block α} :
    Scoped closed V (body ++ rest) ↔ Scoped closed V body ∧ Scoped closed (define body V) rest := by
  induction body generalizing V with
  | nil => simp [Scoped]
  | cons inst body ih => simp [Scoped, ih, and_assoc]

@[simp] theorem targets_append (body rest : Block α) :
    targets (body ++ rest) = targets body ++ targets rest := by
  induction body with
  | nil => rfl
  | cons inst body ih => simp [targets, ih]

theorem mem_targets_append {body rest : Block α} {r : Reg} :
    r ∈ targets (body ++ rest) ↔ r ∈ targets body ∨ r ∈ targets rest := by
  rw [targets_append, List.mem_append]

section Replaced

variable {part part' rest new : Block α}

/-- What takes the place of a part and of the code behind it sets what they set, or what is allowed
besides. -/
theorem targets_replaced {P : Nat → Prop} (h : ∀ r : Nat, r ∈ targets part' → r ∈ targets part ∨
    P r) (h' : ∀ r : Nat, r ∈ targets new → r ∈ targets rest ∨ P r) :
    ∀ r : Nat, r ∈ targets (part' ++ new) → r ∈ targets (part ++ rest) ∨ P r := by
  intro r hr
  rw [mem_targets_append] at hr ⊢
  rcases hr with hr | hr
  · exact (h r hr).imp_left Or.inl
  · exact (h' r hr).imp_left Or.inr

/-- It sets no register twice, if the part's new registers are past the old ones and those behind it
further on. -/
theorem nodup_replaced {bound bound₁ : Nat} (hd : (targets (part ++ rest)).Nodup)
    (hlt : ∀ r : Nat, r ∈ targets (part ++ rest) → r < bound)
    (h : ∀ r : Nat, r ∈ targets part' → r ∈ targets part ∨ bound ≤ r ∧ r < bound₁)
    (h' : ∀ r : Nat, r ∈ targets new → r ∈ targets rest ∨ bound₁ ≤ r) (hle : bound ≤ bound₁)
    (hn : (targets part').Nodup) (hn' : (targets new).Nodup) : (targets (part' ++ new)).Nodup := by
  rw [targets_append] at hd
  simp only [mem_targets_append] at hlt
  rw [targets_append]
  refine List.nodup_append.mpr ⟨hn, hn', ?_⟩
  rintro r hr _ hr' rfl
  rcases h r hr with hr | hr <;> rcases h' r hr' with hr' | hr'
  · exact (List.nodup_append.mp hd).2.2 r hr r hr' rfl
  · have := hlt r (Or.inl hr)
    omega
  · have := hlt r (Or.inr hr')
    omega
  · omega

end Replaced

end Block

mutual

theorem Inst.Each.imp {P Q : Option Shape → Inst α → Prop}
    (h : ∀ shape inst, P shape inst → Q shape inst) :
    ∀ {shape : Option Shape} {inst : Inst α}, inst.Each P shape → inst.Each Q shape
  | _, .load _ _ _, hi | _, .store _ _ _, hi | _, .binary _ _ _ _, hi | _, .call _, hi => h _ _ hi
  | _, .loop _ _ _ _, hi => ⟨h _ _ hi.1, Block.Each.imp h hi.2⟩

theorem Block.Each.imp {P Q : Option Shape → Inst α → Prop}
    (h : ∀ shape inst, P shape inst → Q shape inst) :
    ∀ {shape : Option Shape} {body : List (Inst α)}, Block.Each P shape body →
    Block.Each Q shape body
  | _, [], _ => trivial
  | _, _ :: _, hb => ⟨Inst.Each.imp h hb.1, Block.Each.imp h hb.2⟩

end

mutual

theorem Inst.Each.and {P Q : Option Shape → Inst α → Prop} :
    ∀ {shape : Option Shape} {inst : Inst α}, inst.Each P shape → inst.Each Q shape →
      inst.Each (fun shape inst => P shape inst ∧ Q shape inst) shape
  | _, .load _ _ _, hp, hq | _, .store _ _ _, hp, hq | _, .binary _ _ _ _, hp, hq
  | _, .call _, hp, hq => ⟨hp, hq⟩
  | _, .loop _ _ _ _, hp, hq => ⟨⟨hp.1, hq.1⟩, Block.Each.and hp.2 hq.2⟩

theorem Block.Each.and {P Q : Option Shape → Inst α → Prop} :
    ∀ {shape : Option Shape} {body : List (Inst α)}, Block.Each P shape body →
    Block.Each Q shape body → Block.Each (fun shape inst => P shape inst ∧ Q shape inst) shape body
  | _, [], _, _ => trivial
  | _, _ :: _, hp, hq => ⟨Inst.Each.and hp.1 hq.1, Block.Each.and hp.2 hq.2⟩

end

mutual

theorem Inst.Scoped.mono {closed closed' : Bool} (hc : closed' = true → closed = true) :
    ∀ {V W : Set Reg}, V ⊆ W → ∀ {inst : Inst α}, inst.Scoped closed V → inst.Scoped closed' W
  | _, _, _, .load _ _ _, _ | _, _, _, .call _, _ => trivial
  | _, _, h, .store _ _ _, hi => Operand.Reads.mono h hi
  | _, _, h, .binary _ _ _ _, hi => ⟨hi.1.mono h, hi.2.mono h⟩
  | V, W, h, .loop _ _ _ _, hi => by
    refine Block.Scoped.mono hc ?_ hi
    cases closed' with
    | true => simp [hc rfl]
    | false =>
      cases closed with
      | true => simp
      | false => simpa using h

theorem Block.Scoped.mono {closed closed' : Bool} (hc : closed' = true → closed = true) :
    ∀ {V W : Set Reg}, V ⊆ W → ∀ {body : List (Inst α)},
      Block.Scoped closed V body → Block.Scoped closed' W body
  | _, _, _, [], _ => trivial
  | _, _, h, inst :: _, hb =>
    ⟨Inst.Scoped.mono hc h hb.1, Block.Scoped.mono hc (inst.define_mono h) hb.2⟩

end

end StreamStats
