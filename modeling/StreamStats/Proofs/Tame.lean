import StreamStats.Proofs.Checked
import StreamStats.Transform.Constants

/-! The code that rewriting starts from and leads to. It is legal, loops read nothing from outside
and do not nest, and of every register it is known which numbers it may turn out to hold when
constants are folded; all immediates, now or after folding, come from one set. Loops have their own
lanes and numbers, so a rewriting of one loop concerns no other code. -/

namespace StreamStats

open Check

variable {α : Type}

/-- What a register may hold: a single value or so many lanes, and which numbers when it turns out
constant. -/
structure Info (α : Type) where
  lanes : Nat
  numbers : Set α
  lanes_ne_zero : lanes ≠ 0

namespace Operand

def numbers (info : Reg → Info α) : Operand α → Set α
  | reg r => (info r).numbers
  | imm value => {value}

def lanes (info : Reg → Info α) (x : Operand α) : Nat := x.width fun r => (info r).lanes

@[simp] theorem lanes_ne_zero (info : Reg → Info α) (x : Operand α) : x.lanes info ≠ 0 := by
  cases x with
  | reg r => exact (info r).lanes_ne_zero
  | imm _ => exact Nat.one_ne_zero

end Operand

namespace Inst

variable [Scalar α]

def Plain (context : Context α) (S : Set α) (info : Reg → Info α) (shape : Option Shape) :
    Inst α → Prop
  | .load dst src n =>
    Reaches context.segments shape src n false ∧ (n = 1 ∨ n = (info dst).lanes) ∧
      (src.stride = 0 → n = 1) ∧ ∀ v, constantAt? context.segments src = some v →
      v ∈ (info dst).numbers
  | .store dst src n =>
    Reaches context.segments shape dst n true ∧ (src.lanes info = 1 ∨ src.lanes info = n) ∧
      src.numbers info ⊆ S
  | .binary dst op lhs rhs =>
    ((lhs.lanes info = rhs.lanes info ∨ lhs.lanes info = 1 ∨ rhs.lanes info = 1) ∧
      (max (lhs.lanes info) (rhs.lanes info) = 1 ∨
        max (lhs.lanes info) (rhs.lanes info) = (info dst).lanes)) ∧
      (lhs.numbers info ⊆ S ∧ rhs.numbers info ⊆ S) ∧
      (lhs.numbers info ⊆ (info dst).numbers ∧ rhs.numbers info ⊆ (info dst).numbers) ∧
      ∀ x ∈ lhs.numbers info, ∀ y ∈ rhs.numbers info, op.apply x y ∈ (info dst).numbers
  | .call callee => callee ∈ context.routines
  | .loop _ _ _ _ => False

def Tame (context : Context α) (S : Set α) (info : Reg → Info α) : Inst α → Prop
  | .load dst src n => Plain context S info none (.load dst src n)
  | .store dst src n => Plain context S info none (.store dst src n)
  | .binary dst op lhs rhs => Plain context S info none (.binary dst op lhs rhs)
  | .call callee => callee ∈ context.routines
  | .loop trips step _ body =>
    step ≠ 0 ∧ ∃ info, ∀ inst ∈ body, Plain context S info (some ⟨iterations trips step, step⟩) inst

variable {context : Context α} {S : Set α} {info info' : Reg → Info α} {shape : Option Shape}

theorem Plain.legal {inst : Inst α} (h : inst.Plain context S info shape) :
    inst.Each (fun shape inst => inst.Legal context (fun r => (info r).lanes) shape) shape := by
  cases inst with
  | load dst src n => exact ⟨h.1, h.2.1⟩
  | store dst src n => exact ⟨h.1, h.2.1⟩
  | binary dst op lhs rhs => exact h.1
  | call callee => exact h
  | loop _ _ _ _ => exact h.elim

theorem Plain.flat {inst : Inst α} (h : inst.Plain context S info shape) :
    inst.iterations? = none := by
  cases inst with
  | loop _ _ _ _ => exact h.elim
  | _ => rfl

theorem Plain.mem_of_imm {inst : Inst α} (h : inst.Plain context S info shape) {v : α}
    (hv : Operand.imm v ∈ inst.operands) : v ∈ S := by
  cases inst with
  | store dst x n =>
    obtain rfl := List.mem_singleton.mp hv
    exact h.2.2 rfl
  | binary dst op x y =>
    rcases List.mem_pair.mp hv with rfl | rfl
    · exact h.2.1.1 rfl
    · exact h.2.1.2 rfl
  | loop _ _ _ _ => exact h.elim
  | _ => cases hv

/-- What is known of registers is known of those that take their place. -/
theorem Plain.rename {φ : Reg → Reg} {inst : Inst α} (h : inst.Plain context S info shape)
    (hi : ∀ r ∈ inst.mentions, info' (φ r) = info r) :
    (inst.rename φ).Plain context S info' shape := by
  have hx : ∀ x : Operand α, (∀ r ∈ x.reg?.toList, r ∈ inst.mentions) →
      (x.rename φ).lanes info' = x.lanes info ∧ (x.rename φ).numbers info' = x.numbers info := by
    intro x hm
    cases x with
    | imm _ => exact ⟨rfl, rfl⟩
    | reg r =>
      have := hi r (hm r (by simp [Operand.reg?]))
      simp [Operand.rename, Operand.lanes, Operand.width, Operand.numbers, this]
  cases inst with
  | load dst src n =>
    simpa only [Inst.rename, Plain, hi dst (by simp [mentions])] using h
  | store dst src n =>
    obtain ⟨hl, hn⟩ := hx src (by simp [mentions])
    simpa only [Inst.rename, Plain, hl, hn] using h
  | binary dst op lhs rhs =>
    obtain ⟨hl, hn⟩ := hx lhs fun r hr => List.mem_cons_of_mem _ (List.mem_append_left _ hr)
    obtain ⟨hl', hn'⟩ := hx rhs fun r hr => List.mem_cons_of_mem _ (List.mem_append_right _ hr)
    simpa only [Inst.rename, Plain, hl, hn, hl', hn', hi dst (by simp [mentions])] using h
  | call callee => exact h
  | loop _ _ _ _ => exact h.elim

theorem Plain.congr {inst : Inst α} (h : inst.Plain context S info shape)
    (hi : ∀ r ∈ inst.mentions, info r = info' r) : inst.Plain context S info' shape :=
  inst.rename_id ▸ h.rename (φ := id) fun r hr => (hi r hr).symm

theorem Tame.congr {inst : Inst α} (h : inst.Tame context S info)
    (hi : ∀ r ∈ inst.mentions, info r = info' r) : inst.Tame context S info' := by
  cases inst with
  | load dst src n => exact (show Plain context S info none (.load dst src n) from h).congr hi
  | store dst src n => exact (show Plain context S info none (.store dst src n) from h).congr hi
  | binary dst op lhs rhs =>
    exact (show Plain context S info none (.binary dst op lhs rhs) from h).congr hi
  | call callee => exact h
  | loop _ _ _ _ => exact h

theorem tame_of_plain {inst : Inst α} (h : inst.Plain context S info none) :
    inst.Tame context S info := by
  cases inst with
  | loop _ _ _ _ => exact h.elim
  | _ => exact h

theorem plain_of_tame {inst : Inst α} (h : inst.Tame context S info)
    (hf : inst.iterations? = none) :
    inst.Plain context S info none := by
  cases inst with
  | loop _ _ _ _ => cases hf
  | _ => exact h

end Inst

@[simp] theorem Block.mem_mentions {body : Block α} {r : Reg} :
    r ∈ mentions body ↔ ∃ inst ∈ body, r ∈ inst.mentions := by
  induction body with
  | nil => simp [mentions]
  | cons inst body ih => simp [mentions, ih]

@[simp] theorem Block.mem_targets {body : Block α} {r : Reg} :
    r ∈ targets body ↔ ∃ inst ∈ body, r ∈ inst.targets := by
  induction body with
  | nil => simp [targets]
  | cons inst body ih => simp [targets, ih]

mutual

theorem Inst.mentions_of_scoped {closed : Bool} :
    ∀ {inst : Inst α} {V : Set Reg}, inst.Scoped closed V → ∀ r ∈ inst.mentions, r ∈ V ∨
    r ∈ inst.targets
  | .load dst _ _, V, _, r, hr => by simpa [Inst.mentions, Inst.targets] using Or.inr hr
  | .store _ x _, V, h, r, hr => by
    cases x with
    | imm _ => simp [Inst.mentions, Operand.reg?] at hr
    | reg r' =>
      have : r = r' := by simpa [Inst.mentions, Operand.reg?] using hr
      exact Or.inl (this ▸ h)
  | .binary dst _ x y, V, h, r, hr => by
    simp only [Inst.mentions, List.mem_cons, List.mem_append] at hr
    rcases hr with rfl | hr | hr
    · exact Or.inr (by simp [Inst.targets])
    · cases x with
      | imm _ => simp [Operand.reg?] at hr
      | reg r' =>
        have : r = r' := by simpa [Operand.reg?] using hr
        exact Or.inl (this ▸ h.1)
    · cases y with
      | imm _ => simp [Operand.reg?] at hr
      | reg r' =>
        have : r = r' := by simpa [Operand.reg?] using hr
        exact Or.inl (this ▸ h.2)
  | .call _, V, _, r, hr => by simp [Inst.mentions] at hr
  | .loop _ _ _ body, V, h, r, hr => by
    rcases Block.mentions_of_scoped h r hr with hV | ht
    · cases closed with
      | true => exact absurd hV (by simp)
      | false => exact Or.inl (by simpa using hV)
    · exact Or.inr ht

theorem Block.mentions_of_scoped {closed : Bool} :
    ∀ {body : List (Inst α)} {V : Set Reg}, Block.Scoped closed V body →
      ∀ r ∈ Block.mentions body, r ∈ V ∨ r ∈ Block.targets body
  | [], V, _, r, hr => by simp [Block.mentions] at hr
  | inst :: rest, V, h, r, hr => by
    simp only [Block.mentions, Block.targets, List.mem_append] at hr ⊢
    rcases hr with hr | hr
    · exact (Inst.mentions_of_scoped h.1 r hr).imp_right Or.inl
    · rcases Block.mentions_of_scoped h.2 r hr with hV | ht
      · rcases hV with hV | hV
        · exact Or.inl hV
        · exact Or.inr (Or.inl (Inst.mem_targets_of_target? hV))
      · exact Or.inr (Or.inr ht)

end

mutual

theorem Inst.targets_subset_mentions : ∀ (inst : Inst α), ∀ r ∈ inst.targets, r ∈ inst.mentions
  | .load _ _ _, _, hr => hr
  | .store _ _ _, _, hr => absurd hr (by simp [Inst.targets])
  | .binary _ _ _ _, _, hr => List.mem_cons.mpr (Or.inl (by simpa [Inst.targets] using hr))
  | .call _, _, hr => hr
  | .loop _ _ _ body, r, hr => Block.targets_subset_mentions body r hr

theorem Block.targets_subset_mentions :
    ∀ (body : List (Inst α)), ∀ r ∈ Block.targets body, r ∈ Block.mentions body
  | [], _, hr => hr
  | inst :: rest, r, hr => List.mem_append.mpr ((List.mem_append.mp hr).imp
      (Inst.targets_subset_mentions inst r) (Block.targets_subset_mentions rest r))

end

theorem Block.targets_of_flat {body : List (Inst α)} (h : ∀ inst ∈ body, inst.iterations? = none) :
    Block.targets body = body.filterMap Inst.target? := by
  induction body with
  | nil => rfl
  | cons inst rest ih =>
    have hr := ih fun i hi => h i (List.mem_cons_of_mem _ hi)
    have hi := h inst List.mem_cons_self
    cases inst with
    | loop _ _ _ _ => cases hi
    | _ => simp [Block.targets, Inst.targets, Inst.target?, List.filterMap_cons, hr]

mutual

theorem Inst.Each.rename {P Q : Option Shape → Inst α → Prop} {φ : Reg → Reg}
    {lanes lanes' : Reg → Nat} (h : ∀ shape inst, (∀ r ∈ inst.mentions, lanes' (φ r) = lanes r) →
      P shape inst → Q shape (inst.rename φ)) :
    ∀ {inst : Inst α} {shape : Option Shape}, (∀ r ∈ inst.mentions, lanes' (φ r) = lanes r) →
      inst.Each P shape → (inst.rename φ).Each Q shape
  | .load _ _ _, _, hi, hp | .store _ _ _, _, hi, hp | .binary _ _ _ _, _, hi, hp | .call _, _, hi,
      hp => h _ _ hi hp
  | .loop _ _ _ _, _, hi, hp => ⟨h _ _ hi hp.1, Block.Each.rename h hi hp.2⟩

theorem Block.Each.rename {P Q : Option Shape → Inst α → Prop} {φ : Reg → Reg}
    {lanes lanes' : Reg → Nat} (h : ∀ shape inst, (∀ r ∈ inst.mentions, lanes' (φ r) = lanes r) →
      P shape inst → Q shape (inst.rename φ)) :
    ∀ {body : List (Inst α)} {shape : Option Shape},
    (∀ r ∈ Block.mentions body, lanes' (φ r) = lanes r) →
      Block.Each P shape body → Block.Each Q shape (Block.rename φ body)
  | [], _, _, _ => trivial
  | _ :: _, _, hi, hp =>
    ⟨Inst.Each.rename h (fun r hr => hi r (List.mem_append_left _ hr)) hp.1,
      Block.Each.rename h (fun r hr => hi r (List.mem_append_right _ hr)) hp.2⟩

end

section Congr

variable {P Q : Option Shape → Inst α → Prop} {lanes lanes' : Reg → Nat} {shape : Option Shape}

theorem Inst.Each.congr (h : ∀ shape inst, (∀ r ∈ inst.mentions, lanes r = lanes' r) →
    P shape inst → Q shape inst) {inst : Inst α} (hi : ∀ r ∈ inst.mentions, lanes r = lanes' r)
    (hp : inst.Each P shape) : inst.Each Q shape := by
  have hrenamed : (inst.rename id).Each Q shape := Inst.Each.rename
    (fun shape inst hi hp => inst.rename_id.symm ▸ h shape inst (fun r hr => (hi r hr).symm) hp)
    (fun r hr => (hi r hr).symm) hp
  rwa [inst.rename_id] at hrenamed

theorem Block.Each.congr (h : ∀ shape inst, (∀ r ∈ inst.mentions, lanes r = lanes' r) →
    P shape inst → Q shape inst) {body : List (Inst α)}
    (hi : ∀ r ∈ Block.mentions body, lanes r = lanes' r) (hp : Block.Each P shape body) :
    Block.Each Q shape body :=
  Block.each_iff.mpr fun _ hmem => Inst.Each.congr h
    (fun r hr => hi r (Block.mem_mentions.mpr ⟨_, hmem, hr⟩)) (Block.each_iff.mp hp _ hmem)

end Congr

theorem Operand.width_rename {φ : Reg → Reg} {lanes lanes' : Reg → Nat} {x : Operand α}
    (h : ∀ r, x.reg? = some r → lanes' (φ r) = lanes r) :
    (x.rename φ).width lanes' = x.width lanes := by
  cases x with
  | imm _ => rfl
  | reg r => exact h r rfl

theorem Inst.Admitted.rename {context : Context α} {φ : Reg → Reg} {lanes lanes' : Reg → Nat}
    {inst : Inst α} {shape : Option Shape} (hi : ∀ r ∈ inst.mentions, lanes' (φ r) = lanes r)
    (h : inst.Admitted context lanes shape) : (inst.rename φ).Admitted context lanes' shape := by
  cases inst with
  | load dst src n =>
    have hdst := hi dst (by simp [Inst.mentions])
    simpa only [Inst.rename, Inst.Admitted, hdst] using h
  | store dst x n =>
    have hx : (x.rename φ).width lanes' = x.width lanes :=
      Operand.width_rename fun r hr => hi r (by simp [Inst.mentions, hr])
    simpa only [Inst.rename, Inst.Admitted, hx] using h
  | binary dst op x y =>
    have hx : (x.rename φ).width lanes' = x.width lanes :=
      Operand.width_rename fun r hr => hi r (by simp [Inst.mentions, hr])
    have hy : (y.rename φ).width lanes' = y.width lanes :=
      Operand.width_rename fun r hr => hi r (by simp [Inst.mentions, hr])
    have hdst := hi dst (by simp [Inst.mentions])
    simpa only [Inst.rename, Inst.Admitted, hx, hy, hdst] using h
  | call _ => exact h
  | loop _ _ _ _ => exact h

theorem Inst.Admitted.congr {context : Context α} {lanes lanes' : Reg → Nat} {inst : Inst α}
    {shape : Option Shape} (hi : ∀ r ∈ inst.mentions, lanes r = lanes' r)
    (h : inst.Admitted context lanes shape) :
    inst.Admitted context lanes' shape :=
  inst.rename_id ▸ h.rename (φ := id) fun r hr => (hi r hr).symm

theorem Inst.Legal.congr {context : Context α} {lanes lanes' : Reg → Nat} {inst : Inst α}
    {shape : Option Shape} (hi : ∀ r ∈ inst.mentions, lanes r = lanes' r)
    (h : inst.Legal context lanes shape) :
    inst.Legal context lanes' shape := by
  have ha := h.admitted.congr hi
  cases inst with
  | load _ _ _ => exact ⟨h.1, ha.2⟩
  | store _ _ _ => exact ⟨h.1, ha.2⟩
  | _ => exact ha

variable [Scalar α] {context : Context α} {S : Set α}

/-- What is known inside loops and outside of them comes together, as no register is set in both. -/
theorem Block.exists_lanes {info : Reg → Info α} {body : List (Inst α)} {V : Set Reg}
    (h : ∀ inst ∈ body, inst.Tame context S info) (hs : Block.Scoped true V body)
    (hd : (Block.targets body).Nodup) (hV : ∀ r ∈ V, r ∉ Block.targets body) :
    ∃ lanes : Reg → Nat, (∀ r, r ∉ Block.targets body → lanes r = (info r).lanes) ∧
      Block.Each (fun shape inst => inst.Legal context lanes shape) none body := by
  induction body generalizing V with
  | nil => exact ⟨fun r => (info r).lanes, fun _ _ => rfl, trivial⟩
  | cons inst rest ih =>
    obtain ⟨hdi, hdr, hdis⟩ := List.nodup_append.mp hd
    have hVr : ∀ r ∈ inst.define V, r ∉ Block.targets rest := by
      rintro r (hr | hr) ht
      · exact hV r hr (List.mem_append_right _ ht)
      · exact hdis r (Inst.mem_targets_of_target? hr) r ht rfl
    obtain ⟨lanes, hout, hrest⟩ := ih (fun i hi => h i (List.mem_cons_of_mem _ hi)) hs.2 hdr hVr
    have hinst := h inst List.mem_cons_self
    have hplain : inst.Plain context S info none → ∃ lanes : Reg → Nat,
        (∀ r, r ∉ Block.targets (inst :: rest) → lanes r = (info r).lanes) ∧
          Block.Each (fun shape inst => inst.Legal context lanes shape) none (inst :: rest) := by
      intro hp
      refine ⟨lanes, fun r hr => hout r fun ht => hr (List.mem_append_right _ ht),
        Inst.Each.congr (fun _ _ hi h => h.congr hi) (fun r hr => (hout r ?_).symm) hp.legal, hrest⟩
      rcases Inst.mentions_of_scoped hs.1 r hr with hr | hr
      · exact hVr r (Or.inl hr)
      · exact fun ht => hdis r hr r ht rfl
    cases inst with
    | load dst src n => exact hplain hinst
    | store dst src n => exact hplain hinst
    | binary dst op lhs rhs => exact hplain hinst
    | call callee => exact hplain hinst
    | loop trips step parallel body =>
      obtain ⟨hstep, inner, hbody⟩ := hinst
      classical
      refine ⟨fun r => if r ∈ Block.targets body then (inner r).lanes else lanes r, fun r hr => ?_,
        ⟨?_, ?_⟩, ?_⟩
      · have hr : r ∉ Block.targets body ∧ r ∉ Block.targets rest := by
          simpa [Block.targets, Inst.targets] using hr
        simp only [if_neg hr.1]
        exact hout r hr.2
      · exact ⟨rfl, hstep⟩
      · refine Block.each_iff.mpr fun i hi => Inst.Each.congr (fun _ _ hi h => h.congr hi)
          (fun r hr => ?_) (hbody i hi).legal
        have hm : r ∈ Block.mentions body := Block.mem_mentions.mpr ⟨i, hi, hr⟩
        rcases Block.mentions_of_scoped hs.1 r hm with hV | ht
        · exact absurd hV (by simp)
        · simp only [if_pos ht]
      · refine Block.Each.congr (fun _ _ hi h => h.congr hi) (fun r hr => ?_) hrest
        have hout : r ∉ Block.targets body := by
          intro ht
          rcases Block.mentions_of_scoped hs.2 r hr with (hr | hr) | hr
          · exact hV r hr (List.mem_append_left _ ht)
          · cases hr
          · exact hdis r ht r hr rfl
        simp only [if_neg hout]

/-- What is asked of a routine that is rewritten. -/
structure Routine.Tame (context : Context α) (S : Set α) (r : Routine α) : Prop where
  tame : ∃ info, ∀ inst ∈ r.body, inst.Tame context S info
  reads : Block.Scoped true ∅ r.body
  nodup : (Block.targets r.body).Nodup

theorem Routine.Tame.sound {r : Routine α} (h : r.Tame context S) : r.Sound context true := by
  obtain ⟨info, hi⟩ := h.tame
  obtain ⟨lanes, -, hl⟩ := Block.exists_lanes hi h.reads h.nodup (by simp)
  exact ⟨⟨lanes, hl⟩, h.reads, h.nodup⟩

end StreamStats
