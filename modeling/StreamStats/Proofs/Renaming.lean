import StreamStats.Proofs.Thinning

/-! Code under other registers. As long as no two registers fall together, renamed code does what
the code did, each register holding what the one it replaces held. -/

namespace StreamStats

open Exec

variable {α : Type}

namespace Operand

theorem Reads.rename {V : Set Reg} {x : Operand α} (h : x.Reads V) (φ : Reg → Reg) {W : Set Reg}
    (hW : ∀ r ∈ V, φ r ∈ W) : (x.rename φ).Reads W := by
  cases x with
  | reg r => exact hW r h
  | imm _ => trivial

end Operand

mutual

@[simp] theorem Inst.targets_rename (φ : Reg → Reg) :
    ∀ inst : Inst α, (inst.rename φ).targets = inst.targets.map φ
  | .load _ _ _ | .store _ _ _ | .binary _ _ _ _ | .call _ => rfl
  | .loop _ _ _ body => Block.targets_rename φ body

@[simp] theorem Block.targets_rename (φ : Reg → Reg) :
    ∀ body : List (Inst α), Block.targets (Block.rename φ body) = (Block.targets body).map φ
  | [] => rfl
  | inst :: rest => by
    rw [Block.rename, Block.targets, Block.targets, Inst.targets_rename φ inst,
      Block.targets_rename φ rest, List.map_append]

end

mutual

@[simp] theorem Inst.mentions_rename (φ : Reg → Reg) :
    ∀ inst : Inst α, (inst.rename φ).mentions = inst.mentions.map φ
  | .load _ _ _ | .call _ => rfl
  | .store _ x _ => by cases x <;> rfl
  | .binary _ _ x y => by cases x <;> cases y <;> rfl
  | .loop _ _ _ body => Block.mentions_rename φ body

@[simp] theorem Block.mentions_rename (φ : Reg → Reg) :
    ∀ body : List (Inst α), Block.mentions (Block.rename φ body) = (Block.mentions body).map φ
  | [] => rfl
  | inst :: rest => by
    rw [Block.rename, Block.mentions, Block.mentions, Inst.mentions_rename φ inst,
      Block.mentions_rename φ rest, List.map_append]

end

theorem Block.rename_eq_map (φ : Reg → Reg) (body : List (Inst α)) :
    Block.rename φ body = body.map (Inst.rename φ) := by
  induction body with
  | nil => rfl
  | cons inst rest ih => rw [Block.rename, ih, List.map_cons]

@[simp] theorem Inst.target?_rename (φ : Reg → Reg) (inst : Inst α) :
    (inst.rename φ).target? = inst.target?.map φ := by
  cases inst <;> rfl

theorem Inst.define_rename (φ : Reg → Reg) (inst : Inst α) {V W : Set Reg} (hW : ∀ r ∈ V, φ r ∈ W) :
    ∀ r ∈ inst.define V, φ r ∈ (inst.rename φ).define W := by
  rintro r (hr | hr)
  · exact Or.inl (hW r hr)
  · exact Or.inr (by rw [Inst.target?_rename, hr]; rfl)

mutual

theorem Inst.Scoped.rename (φ : Reg → Reg) {closed : Bool} :
    ∀ {inst : Inst α} {V W : Set Reg}, inst.Scoped closed V → (∀ r ∈ V, φ r ∈ W) →
    (inst.rename φ).Scoped closed W
  | .load _ _ _, _, _, _, _ | .call _, _, _, _, _ => trivial
  | .store _ _ _, _, _, h, hW => Operand.Reads.rename h φ hW
  | .binary _ _ _ _, _, _, h, hW => ⟨h.1.rename φ hW, h.2.rename φ hW⟩
  | .loop _ _ _ _, _, _, h, hW =>
    Block.Scoped.rename φ h (by cases closed; exacts [by simpa using hW, by simp])

theorem Block.Scoped.rename (φ : Reg → Reg) {closed : Bool} :
    ∀ {body : List (Inst α)} {V W : Set Reg}, Block.Scoped closed V body → (∀ r ∈ V, φ r ∈ W) →
      Block.Scoped closed W (Block.rename φ body)
  | [], _, _, _, _ => trivial
  | inst :: _, _, _, h, hW =>
    ⟨Inst.Scoped.rename φ h.1 hW, Block.Scoped.rename φ h.2 (inst.define_rename φ hW)⟩

end

section Tame

variable [Scalar α] {context : Context α} {S : Set α} {info info' : Reg → Info α} {φ : Reg → Reg}

omit [Scalar α] in
theorem exists_info_renamed (info : Reg → Info α) {φ : Reg → Reg} {rs : List Reg}
    (hφ : ∀ r ∈ rs, ∀ r' ∈ rs, φ r = φ r' → r = r') :
    ∃ info' : Reg → Info α, ∀ r ∈ rs, info' (φ r) = info r := by
  classical
  refine ⟨fun r' => if h : ∃ r ∈ rs, φ r = r' then info h.choose else info 0, fun r hr => ?_⟩
  have h : ∃ r₁ ∈ rs, φ r₁ = φ r := ⟨r, hr, rfl⟩
  simp only [dif_pos h, hφ _ h.choose_spec.1 r hr h.choose_spec.2]

theorem Inst.Tame.rename {inst : Inst α} (h : inst.Tame context S info) (hφ : φ.Injective)
    (hi : ∀ r ∈ inst.mentions, info' (φ r) = info r) : (inst.rename φ).Tame context S info' := by
  cases inst with
  | load dst src n => exact (show Plain context S info none (.load dst src n) from h).rename hi
  | store dst x n => exact (show Plain context S info none (.store dst x n) from h).rename hi
  | binary dst op x y =>
    exact (show Plain context S info none (.binary dst op x y) from h).rename hi
  | call callee => exact h
  | loop trips step parallel body =>
    obtain ⟨hstep, inner, hplain⟩ := h
    obtain ⟨inner', hinner⟩ :=
      exists_info_renamed inner fun r (_ : r ∈ Block.mentions body) r' _ he => hφ he
    refine ⟨hstep, inner', fun inst' hi' => ?_⟩
    rw [Block.rename_eq_map] at hi'
    obtain ⟨inst, hmem, rfl⟩ := List.mem_map.mp hi'
    exact (hplain inst hmem).rename fun r hr => hinner r (Block.mem_mentions.mpr ⟨inst, hmem, hr⟩)

end Tame

section Runs

variable [Scalar α] {segments : Array (Segment α)} {call call' : String → Exec α Unit}
    {name name' : String} {φ : Reg → Reg}

/-- A frame holds what another holds, in registers that were renamed. -/
def Frame.Renames (φ : Reg → Reg) (V : Set Reg) (f g : Frame α) : Prop :=
  ∀ r ∈ V, g.get? (φ r) = f.get? r

omit [Scalar α] in
theorem Frame.Renames.operand {V : Set Reg} {f g : Frame α} (h : Frame.Renames φ V f g)
    {x : Operand α} (hx : x.Reads V) : Frame.value? g (x.rename φ) = Frame.value? f x := by
  cases x with
  | reg r => exact h r hx
  | imm _ => rfl

omit [Scalar α] in
theorem Frame.Renames.set {V : Set Reg} {f g : Frame α} (h : Frame.Renames φ V f g) {dst : Reg}
    (hφ : ∀ r ∈ V, φ r = φ dst → r = dst) (xs : List α) :
    Frame.Renames φ {r | r ∈ V ∨ some dst = some r} (f.set dst xs) (g.set (φ dst) xs) := by
  intro r hr
  by_cases hrd : r = dst
  · subst hrd
    simp
  · have hV : r ∈ V := hr.resolve_right fun he => hrd (Option.some.inj he).symm
    rw [RegMap.get?_set, RegMap.get?_set, if_neg hrd, if_neg fun he => hrd (hφ r hV he), h r hV]

mutual

theorem Inst.exec_rename (hcall : CallsFollow (Memory.Same segments) call call') :
    ∀ {inst : Inst α} {shape : Option Check.Shape} {V : Set Reg} {count : Nat} {f g : Frame α}
      {m n : Memory α},
      inst.Each (Inst.Writes segments) shape → inst.Scoped true V → inst.targets.Nodup →
      (∀ r ∈ V, r ∉ inst.targets) →
      (∀ r, r ∈ V ∨ r ∈ inst.targets → ∀ t ∈ inst.targets, φ r = φ t → r = t) →
      Frame.Renames φ V f g → Memory.Same segments m n →
      Follows (fun f' m' g' n' => Frame.Renames φ (inst.define V) f' g' ∧
        Memory.Same segments m' n') (inst.exec call name count f) m
          ((inst.rename φ).exec call' name' count g) n
  | .load dst src k, shape, V, count, f, g, m, n, _, _, _, _, hφ, hf, hmn => by
    obtain ⟨rfl, -⟩ := id hmn
    intro f' m' h
    obtain ⟨hm, rfl, rfl⟩ := Inst.exec_load_iff.mp h
    exact ⟨_, _, Inst.exec_load_iff.mpr ⟨hm, rfl, rfl⟩,
      hf.set (fun r hr => hφ r (Or.inl hr) dst (by simp [Inst.targets])) _, hmn⟩
  | .store dst x k, shape, V, count, f, g, m, n, hw, hs, _, _, _, hf, hmn => by
    obtain ⟨rfl, hfits⟩ := id hmn
    intro f' m' h
    obtain ⟨xs, hx, hl, hm, rfl, rfl⟩ := Inst.exec_store_iff.mp h
    obtain ⟨s, hseg, hwr⟩ := hw
    refine ⟨_, _, Inst.exec_store_iff.mpr ⟨xs, (hf.operand hs).trans hx, hl, hm, rfl, rfl⟩, ?_, rfl,
      hfits.keeps (.writeFrom hseg hwr _ _ _ _)⟩
    rintro r (hr | hr)
    · exact hf r hr
    · cases hr
  | .binary dst op x y, shape, V, count, f, g, m, n, _, hs, _, _, hφ, hf, hmn => by
    obtain ⟨rfl, -⟩ := id hmn
    intro f' m' h
    obtain ⟨xs, ys, zs, hx, hy, hz, rfl, rfl⟩ := Inst.exec_binary_iff.mp h
    exact ⟨_, _, Inst.exec_binary_iff.mpr ⟨xs, ys, zs, (hf.operand hs.1).trans hx,
      (hf.operand hs.2).trans hy, hz,
      rfl, rfl⟩, hf.set (fun r hr => hφ r (Or.inl hr) dst (by simp [Inst.targets])) _, hmn⟩
  | .call callee, shape, V, count, f, g, m, n, _, _, _, _, _, hf, hmn => by
    intro f' m' h
    obtain ⟨rfl, hc⟩ := Inst.exec_call_iff.mp h
    obtain ⟨u, n', hn', hs⟩ := hcall callee m n hmn _ _ hc
    refine ⟨g, n', Inst.exec_call_iff.mpr ⟨rfl, hn'⟩, ?_, hs⟩
    rintro r (hr | hr)
    · exact hf r hr
    · cases hr
  | .loop trips step parallel body, shape, V, count, f, g, m, n, hw, hs, hd, hV, hφ, hf, hmn => by
    rw [Inst.rename, Inst.exec_loop, Inst.exec_loop]
    -- a round starts from nothing and leaves everything outside of the loop as it is
    refine (Follows.iterate (P := fun f' m' g' n' => Frame.Renames φ V f' g' ∧
      Memory.Same segments m' n') _ 0 ⟨hf, hmn⟩ fun i _ f₁ m₁ g₁ n₁ h₁ => ?_).imp ?_
    · intro f₂ m₂ hx
      obtain ⟨g₂, n₂, hy, -, hmn₂⟩ := Block.exec_rename hcall hw.2 hs hd (by simp)
        (fun r hr t ht => hφ r (Or.inr (hr.resolve_left (by simp))) t ht)
        (fun r hr => absurd hr (by simp)) h₁.2 f₂ m₂ hx
      refine ⟨g₂, n₂, hy, fun r hr => ?_, hmn₂⟩
      rw [Block.exec_frame f₂ m₂ hx r (hV r hr), Block.exec_frame g₂ n₂ hy (φ r) ?_, h₁.1 r hr]
      rw [Block.targets_rename, List.mem_map]
      rintro ⟨t, ht, he⟩
      exact hV r hr ((hφ r (Or.inl hr) t ht he.symm) ▸ ht)
    · rintro f' m' g' n' ⟨hf', hmn'⟩
      refine ⟨?_, hmn'⟩
      rintro r (hr | hr)
      · exact hf' r hr
      · cases hr

/-- Renamed code does what the code did. -/
theorem Block.exec_rename (hcall : CallsFollow (Memory.Same segments) call call') :
    ∀ {body : List (Inst α)} {shape : Option Check.Shape} {V : Set Reg} {count : Nat}
      {f g : Frame α} {m n : Memory α},
      Block.Each (Inst.Writes segments) shape body → Block.Scoped true V body →
      (Block.targets body).Nodup → (∀ r ∈ V, r ∉ Block.targets body) →
      (∀ r, r ∈ V ∨ r ∈ Block.targets body → ∀ t ∈ Block.targets body, φ r = φ t → r = t) →
      Frame.Renames φ V f g → Memory.Same segments m n →
      Follows (fun f' m' g' n' => Frame.Renames φ (Block.define body V) f' g' ∧
        Memory.Same segments m' n') (Block.exec call name count body f) m
          (Block.exec call' name' count (Block.rename φ body) g) n
  | [], _, _, _, _, _, _, _, _, _, _, _, _, hf, hmn => Follows.pure ⟨hf, hmn⟩
  | inst :: rest, shape, V, count, f, g, m, n, hw, hs, hd, hV, hφ, hf, hmn => by
    obtain ⟨hdi, hdr, hdis⟩ := List.nodup_append.mp hd
    have htargets : ∀ r ∈ inst.define V, r ∈ V ∨ r ∈ inst.targets := fun r hr =>
      hr.imp_right Inst.mem_targets_of_target?
    simp only [Block.exec, Block.rename]
    refine (Inst.exec_rename hcall hw.1 hs.1 hdi (fun r hr ht =>
      hV r hr (List.mem_append_left _ ht))
      (fun r hr t ht => hφ r (hr.imp_right (List.mem_append_left _)) t (List.mem_append_left _ ht))
      hf hmn).bind ?_
    rintro f' m' g' n' ⟨hf', hmn'⟩
    refine Block.exec_rename hcall hw.2 hs.2 hdr ?_ ?_ hf' hmn'
    · intro r hr ht
      rcases htargets r hr with hr | hr
      · exact hV r hr (List.mem_append_right _ ht)
      · exact hdis r hr r ht rfl
    · intro r hr t ht
      refine hφ r ?_ t (List.mem_append_right _ ht)
      rcases hr with hr | hr
      · exact (htargets r hr).imp_right (List.mem_append_left _)
      · exact Or.inr (List.mem_append_right _ hr)

end

/-- Code does the same in frames that agree on what is in scope. -/
theorem Block.exec_scoped (hcall : CallsFollow (Memory.Same segments) call call') {body : Block α}
    {shape : Option Check.Shape} {V : Set Reg} {count : Nat} {f g : Frame α} {m n : Memory α}
    (hw : Block.Each (Inst.Writes segments) shape body) (hs : Block.Scoped true V body)
    (hd : (Block.targets body).Nodup) (hV : ∀ r ∈ V, r ∉ Block.targets body)
    (ha : AgreeOn (Memory.Same segments) V f m g n) :
    Follows (AgreeOn (Memory.Same segments) (Block.define body V))
      (Block.exec call name count body f) m (Block.exec call' name' count body g) n := by
  have h :
    Follows (fun f' m' g' n' => Frame.Renames id (Block.define body V) f' g' ∧
      Memory.Same segments m' n') (Block.exec call name count body f) m
        (Block.exec call' name' count (Block.rename id body) g) n :=
    Block.exec_rename hcall hw hs hd hV (fun r _ t _ he => he) (fun r hr => (ha.1 r hr).symm) ha.2
  rw [Block.rename_id] at h
  exact h.imp fun _ _ _ _ h => ⟨fun r hr => (h.1 r hr).symm, h.2⟩

end Runs
end StreamStats
