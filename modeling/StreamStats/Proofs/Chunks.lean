import StreamStats.Proofs.Widening
import StreamStats.Transform.Pack

/-! Chunks and what they are packed into. A bundle is made from the first of its chunks: the same
operations on registers of its own, with the accesses of all chunks as the lanes of one. Every chunk
of the bundle does what the bundle's code for single lanes does at the count of that chunk. -/

namespace StreamStats
namespace Pack

open Check

variable {α : Type}

theorem position?_eq_some {r : Reg} {set : List Reg} {p : Nat} (h : position? r set = some p) :
    set.reverse[p]? = some r := by
  induction set with
  | nil => cases h
  | cons d ds ih =>
    simp only [position?] at h
    split at h
    · rename_i hd
      cases h
      simp [hd]
    · have hp := ih h
      rw [List.reverse_cons, List.getElem?_append_left (List.getElem?_eq_some_iff.mp hp).1, hp]

theorem slot?_eq_some {set : List Reg} {x : Operand α} {s : Slot α} (h : slot? set x = some s) :
    (∃ v, x = .imm v ∧ s = .imm v) ∨ ∃ r p, x = .reg r ∧ s = .result p ∧
    set.reverse[p]? = some r := by
  cases x with
  | imm v =>
    cases h
    exact Or.inl ⟨v, rfl, rfl⟩
  | reg r =>
    obtain ⟨p, hp, rfl⟩ := Option.map_eq_some_iff.mp h
    exact Or.inr ⟨r, p, rfl, rfl, position?_eq_some hp⟩

/-- A chunk with its pieces: loads and operations on what was set before, and one store at the
end. -/
inductive Chunk : List Reg → List (Inst α) → List (Piece α) → Prop
  | store {set : List Reg} {dst : Address} {x : Operand α} {s : Slot α} (stride : dst.stride = 0)
      (slot : slot? set x = some s) : Chunk set [.store dst x 1] [.store dst s]
  | load {set : List Reg} {dst : Reg} {src : Address} {insts : List (Inst α)} {ps : List (Piece α)}
      (stride : src.stride = 0) (more : Chunk (dst :: set) insts ps) :
      Chunk set (.load dst src 1 :: insts) (.load src :: ps)
  | binary {set : List Reg} {dst : Reg} {op : Arith} {x y : Operand α} {l r : Slot α}
      {insts : List (Inst α)} {ps : List (Piece α)} (left : slot? set x = some l)
      (right : slot? set y = some r) (more : Chunk (dst :: set) insts ps) :
      Chunk set (.binary dst op x y :: insts) (.binary op l r :: ps)

theorem chunk_of_pieces? {front : List (Inst α)} {dst : Address} {x : Operand α} {n : Nat}
    (hf : ∀ inst ∈ front, inst.target?.isSome = true) :
    ∀ {set : List Reg} {ps : List (Piece α)}, pieces? set (front ++ [.store dst x n]) = some ps →
      Chunk set (front ++ [.store dst x n]) ps := by
  induction front with
  | nil =>
    intro set ps h
    simp only [List.nil_append, pieces?] at h ⊢
    split at h
    · rename_i s pieces hs hp
      cases hp
      split at h
      · rename_i hc
        cases h
        obtain ⟨rfl, hstride⟩ := hc
        exact .store hstride hs
      · cases h
    · cases h
  | cons inst front ih =>
    intro set ps h
    have hfront := fun i hi => hf i (List.mem_cons_of_mem inst hi)
    cases inst with
    | load d src k =>
      simp only [List.cons_append, pieces?] at h ⊢
      split at h
      · rename_i hc
        obtain ⟨rfl, hstride⟩ := hc
        obtain ⟨ps', hps, rfl⟩ := Option.map_eq_some_iff.mp h
        exact .load hstride (ih hfront hps)
      · cases h
    | binary d op a b =>
      simp only [List.cons_append, pieces?] at h ⊢
      split at h
      · rename_i l r pieces hl hr hp
        cases h
        exact .binary hl hr (ih hfront hp)
      · cases h
    | store _ _ _ => exact absurd (hf _ List.mem_cons_self) (by simp [Inst.target?])
    | call _ => exact absurd (hf _ List.mem_cons_self) (by simp [Inst.target?])
    | loop _ _ _ _ => exact absurd (hf _ List.mem_cons_self) (by simp [Inst.target?])

/-- Pieces that do the same as others, with every access `k` steps further on. -/
inductive Aligned (k : Nat) : List Int → List (Piece α) → List (Piece α) → Prop
  | nil : Aligned k [] [] []
  | load {steps : List Int} {s : Int} {f a : Address} {fs ps : List (Piece α)}
      (segment : a.segment = f.segment) (offset : a.offset = f.offset + k * s)
      (more : Aligned k steps fs ps) : Aligned k (s :: steps) (.load f :: fs) (.load a :: ps)
  | binary {steps : List Int} {op : Arith} {l r : Slot α} {fs ps : List (Piece α)}
      (more : Aligned k steps fs ps) : Aligned k steps (.binary op l r :: fs) (.binary op l r :: ps)
  | store {steps : List Int} {s : Int} {f a : Address} {x : Slot α} {fs ps : List (Piece α)}
      (segment : a.segment = f.segment) (offset : a.offset = f.offset + k * s)
      (more : Aligned k steps fs ps) : Aligned k (s :: steps) (.store f x :: fs) (.store a x :: ps)

theorem Aligned.length_eq {k : Nat} {steps : List Int} {fs ps : List (Piece α)}
    (h : Aligned k steps fs ps) :
    steps.length = (addresses fs).length ∧ steps.length = (addresses ps).length := by
  induction h with
  | nil => exact ⟨rfl, rfl⟩
  | load _ _ _ ih => simpa [addresses, Piece.address?] using ih
  | binary _ ih => exact ih
  | store _ _ _ ih => simpa [addresses, Piece.address?] using ih

def Slot.In (S : Set α) : Slot α → Prop
  | .imm v => v ∈ S
  | .result _ => True

def Piece.In (S : Set α) : Piece α → Prop
  | .load _ => True
  | .binary _ l r => l.In S ∧ r.In S
  | .store _ s => s.In S

section Alike

variable [Scalar α] {S : Set α}

/-- Numbers that the arithmetic takes for equal are the same, as far as numbers of a set go. -/
def Distinct (S : Set α) : Prop := ∀ x ∈ S, ∀ y ∈ S, Scalar.same x y = true → x = y

theorem Slot.eq_of_alike (hS : Distinct S) {l l' : Slot α} (h : l.alike l' = true) (hl : l.In S)
    (hl' : l'.In S) :
    l = l' := by
  cases l <;> cases l' <;> simp only [Slot.alike, Bool.false_eq_true, beq_iff_eq] at h
  · rw [h]
  · rw [hS _ hl _ hl' h]

variable {k : Nat} {f p : Piece α} {fs ps : List (Piece α)} {steps : List Int}

theorem alike_of_fits_cons (h : fits (f :: fs) steps (p :: ps) k = true) : p.alike f = true := by
  simp only [fits, List.zipWith_cons_cons, List.all_cons, id_eq, Bool.and_eq_true] at h
  exact h.1.2.1

theorem fits_cons_of_none (hf : f.address? = none) (hp : p.address? = none) :
    fits (f :: fs) steps (p :: ps) k = true ↔ p.alike f = true ∧ fits fs steps ps k = true := by
  simp only [fits, addresses, List.filterMap_cons, hf, hp, List.length_cons, List.zipWith_cons_cons,
    List.all_cons, id_eq, Bool.and_eq_true, beq_iff_eq, Nat.add_right_cancel_iff]
  tauto

theorem fits_cons_of_some {a b : Address} {s : Int} (hf : f.address? = some a)
    (hp : p.address? = some b) :
    fits (f :: fs) (s :: steps) (p :: ps) k = true ↔
      p.alike f = true ∧ (b.segment = a.segment ∧ b.offset = a.offset + k * s) ∧
      fits fs steps ps k = true := by
  simp only [fits, addresses, List.filterMap_cons, hf, hp, List.length_cons, List.zipWith_cons_cons,
    List.zip_cons_cons, List.all_cons, id_eq, Bool.and_eq_true, beq_iff_eq,
    Nat.add_right_cancel_iff]
  tauto

theorem aligned_of_fits (hS : Distinct S) (h : fits fs steps ps k = true)
    (hlen : steps.length = (addresses fs).length) (hf : ∀ p ∈ fs, p.In S) (hp : ∀ p ∈ ps, p.In S) :
    Aligned k steps fs ps := by
  induction fs generalizing steps ps with
  | nil =>
    obtain rfl := List.length_eq_zero_iff.mp hlen
    cases ps with
    | nil => exact .nil
    | cons p ps => simp [fits] at h
  | cons f fs ih =>
    cases ps with
    | nil => simp [fits] at h
    | cons p ps =>
      obtain ⟨hf₁, hfs⟩ := List.forall_mem_cons.mp hf
      obtain ⟨hp₁, hps⟩ := List.forall_mem_cons.mp hp
      have halike := alike_of_fits_cons h
      have hstep : ∀ {a b : Address}, f.address? = some a → p.address? = some b →
        ∃ s steps', steps = s :: steps' ∧
          b.segment = a.segment ∧ b.offset = a.offset + k * s ∧ Aligned k steps' fs ps := by
        intro a b ha hb
        cases steps with
        | nil => simp [addresses, ha] at hlen
        | cons s steps =>
          obtain ⟨-, ⟨hseg, hoff⟩, hmore⟩ := (fits_cons_of_some ha hb).mp h
          exact ⟨s, steps, rfl, hseg, hoff, ih hmore (by simpa [addresses, ha] using hlen) hfs hps⟩
      cases f with
      | binary op l r =>
        cases p with
        | binary op' l' r' =>
          obtain ⟨-, hmore⟩ := (fits_cons_of_none rfl rfl).mp h
          simp only [Piece.alike, Bool.and_eq_true, beq_iff_eq] at halike
          obtain ⟨⟨rfl, hl⟩, hr⟩ := halike
          obtain rfl := Slot.eq_of_alike hS hl hp₁.1 hf₁.1
          obtain rfl := Slot.eq_of_alike hS hr hp₁.2 hf₁.2
          exact .binary (ih hmore hlen hfs hps)
        | load _ => cases halike
        | store _ _ => cases halike
      | load a =>
        cases p with
        | load a' =>
          obtain ⟨s, steps, rfl, hseg, hoff, hm⟩ := hstep rfl rfl
          exact .load hseg hoff hm
        | binary _ _ _ => cases halike
        | store _ _ => cases halike
      | store a x =>
        cases p with
        | store a' x' =>
          obtain rfl := Slot.eq_of_alike hS halike hp₁ hf₁
          obtain ⟨s, steps, rfl, hseg, hoff, hm⟩ := hstep rfl rfl
          exact .store hseg hoff hm
        | binary _ _ _ => cases halike
        | load _ => cases halike

end Alike

/-- Steps as a bundle has them: accesses stay or go on by one, and the last, which is the store,
goes on. -/
def Steps (steps : List Int) : Prop := (∀ s ∈ steps, s = 0 ∨ s = 1) ∧ steps.getLast? = some 1

theorem Steps.tail {s : Int} {steps : List Int} (h : Steps (s :: steps)) (hne : steps ≠ []) :
    Steps steps := by
  refine ⟨fun s' hs' => h.1 s' (List.mem_cons_of_mem _ hs'), ?_⟩
  rw [← h.2, List.getLast?_cons_of_ne_nil hne]

theorem Steps.eq_singleton {steps : List Int} (h : Steps steps) (hlen : steps.length = 1) :
    steps = [1] := by
  obtain ⟨s, rfl⟩ := List.length_eq_one_iff.mp hlen
  obtain rfl : s = 1 := by simpa using h.2
  rfl

section Emit

variable {set : List Reg} {insts : List (Inst α)} {ps fs : List (Piece α)} {steps : List Int}
    {next k w : Nat}

theorem single_emit {p : Nat} : ∀ inst ∈ emit next 1 p ps steps, inst.IsSingle := by
  induction ps generalizing p steps with
  | nil => simp [emit]
  | cons piece ps ih =>
    cases piece with
    | load a =>
      cases steps with
      | nil => simp [emit]
      | cons s steps => exact List.forall_mem_cons.mpr ⟨by simp [Inst.IsSingle], ih⟩
    | binary op l r => exact List.forall_mem_cons.mpr ⟨trivial, ih⟩
    | store a x =>
      cases steps with
      | nil => simp [emit]
      | cons s steps => exact List.forall_mem_cons.mpr ⟨⟨rfl, Int.one_ne_zero⟩, ih⟩

theorem emit_eq_widen (hs : ∀ s ∈ steps, s = 0 ∨ s = 1) {p : Nat} :
    emit next w p ps steps = (emit next 1 p ps steps).map (Inst.widen w) := by
  induction ps generalizing p steps with
  | nil => simp [emit]
  | cons piece ps ih =>
    cases piece with
    | load a =>
      cases steps with
      | nil => simp [emit]
      | cons s steps =>
        obtain ⟨hs₁, hs⟩ := List.forall_mem_cons.mp hs
        simp only [emit, List.map_cons, Inst.widen, ih hs]
        rcases hs₁ with rfl | rfl <;> simp
    | binary op l r => simp only [emit, List.map_cons, Inst.widen, ih hs]
    | store a x =>
      cases steps with
      | nil => simp [emit]
      | cons s steps =>
        simp only [emit, List.map_cons, Inst.widen, ih (List.forall_mem_cons.mp hs).2]

namespace Chunk

theorem addresses_ne_nil (h : Chunk set insts ps) : addresses ps ≠ [] := by
  induction h with
  | store _ _ => simp [addresses, Piece.address?]
  | load _ _ _ => simp [addresses, Piece.address?]
  | binary _ _ _ ih => simpa [addresses, Piece.address?] using ih

theorem steps_tail (h : Chunk set insts ps) (hlen : steps.length = (addresses ps).length) {s : Int}
    (hsteps : Steps (s :: steps)) : Steps steps := by
  refine hsteps.tail ?_
  rintro rfl
  exact h.addresses_ne_nil (List.length_eq_zero_iff.mp hlen.symm)

theorem length_eq (h : Chunk set insts ps) : ps.length = (Block.targets insts).length + 1 := by
  induction h with
  | store _ _ => rfl
  | load _ _ ih => simp [Block.targets, Inst.targets, ih]
  | binary _ _ _ ih => simp [Block.targets, Inst.targets, ih]

theorem operand_reads {x : Operand α} {s : Slot α} (h : slot? set x = some s) {V : Set Reg}
    (hV : ∀ p < set.length, next + p ∈ V) : (s.operand next).Reads V := by
  rcases slot?_eq_some h with ⟨v, -, rfl⟩ | ⟨r, p, -, rfl, hp⟩
  · trivial
  · exact hV p (by simpa using (List.getElem?_eq_some_iff.mp hp).1)

theorem scoped_emit (h : Chunk set insts ps) :
    ∀ {steps : List Int} {V : Set Reg}, (∀ p < set.length, next + p ∈ V) →
    Block.Scoped true V (emit next 1 set.length ps steps) := by
  induction h with
  | store _ slot =>
    intro steps V hV
    cases steps with
    | nil => trivial
    | cons s steps => exact ⟨operand_reads slot hV, by simp [emit]; trivial⟩
  | @load set dst src insts ps _ _ ih =>
    intro steps V hV
    cases steps with
    | nil => trivial
    | cons s steps =>
      refine ⟨trivial, ih fun p hp => ?_⟩
      rcases Nat.lt_succ_iff_lt_or_eq.mp hp with hp | rfl
      · exact Or.inl (hV p hp)
      · exact Or.inr rfl
  | @binary set dst op x y l r insts ps left right _ ih =>
    intro steps V hV
    refine ⟨⟨operand_reads left hV, operand_reads right hV⟩, ih fun p hp => ?_⟩
    rcases Nat.lt_succ_iff_lt_or_eq.mp hp with hp | rfl
    · exact Or.inl (hV p hp)
    · exact Or.inr rfl

theorem targets_emit (h : Chunk set insts ps) (next w : Nat) : ∀ {steps : List Int},
    steps.length = (addresses ps).length →
    Block.targets (emit next w set.length ps steps) =
      List.range' (next + set.length) (Block.targets insts).length := by
  induction h with
  | @store set dst x s _ _ =>
    intro steps hlen
    cases steps with
    | nil => rfl
    | cons s steps => simp [emit, Block.targets, Inst.targets]
  | @load set dst src insts ps _ _ ih =>
    intro steps hlen
    cases steps with
    | nil => cases hlen
    | cons s steps =>
      simp only [emit, Block.targets, Inst.targets, List.singleton_append, List.length_cons,
        List.range'_succ]
      have hrest : steps.length = (addresses ps).length := by
        simpa [addresses, Piece.address?] using hlen
      have := ih hrest
      rw [List.length_cons] at this
      rw [this, Nat.add_assoc]
  | @binary set dst op x y l r insts ps _ _ _ ih =>
    intro steps hlen
    simp only [emit, Block.targets, Inst.targets, List.singleton_append, List.length_cons,
      List.range'_succ]
    have := ih hlen
    rw [List.length_cons] at this
    rw [this, Nat.add_assoc]

theorem rename_operand {x : Operand α} {s : Slot α} (h : slot? set x = some s) {φ : Reg → Reg}
    (hφ : ∀ p r, set.reverse[p]? = some r → φ (next + p) = r) : (s.operand next).rename φ = x := by
  rcases slot?_eq_some h with ⟨v, rfl, rfl⟩ | ⟨r, p, rfl, rfl, hp⟩
  · rfl
  · simp only [Slot.operand, Operand.rename, hφ p r hp]

/-- A chunk does what the bundle's code for single lanes does at the count of the chunk. -/
theorem spreads (h : Chunk set insts ps) {φ : Reg → Reg} :
    ∀ {steps : List Int} {fs : List (Piece α)}, Aligned k steps fs ps → Steps steps →
    (∀ (p : Nat) (r : Reg), (set.reverse ++ Block.targets insts)[p]? = some r → φ (next + p) = r) →
    List.Forall₂ (Inst.Spreads φ k 1 0) (emit next 1 set.length fs steps) insts := by
  have hindex : ∀ {a f : Address} {s : Int}, a.stride = 0 → a.offset = f.offset + k * s →
      ∀ lane < 1, a.index 0 lane = Address.index { f with stride := s } (k + lane) 0 := by
    intro a f s hstride hoff lane hl
    rw [Nat.lt_one_iff.mp hl]
    simp [Address.index, hstride, hoff]
  have hset : ∀ {set : List Reg} {rs : List Reg},
      (∀ (p : Nat) (r : Reg), (set.reverse ++ rs)[p]? = some r → φ (next + p) = r) →
      ∀ p r, set.reverse[p]? = some r → φ (next + p) = r := by
    intro set rs hφ p r hp
    exact hφ p r (by rw [List.getElem?_append_left (List.getElem?_eq_some_iff.mp hp).1, hp])
  induction h with
  | @store set dst x s stride slot =>
    intro steps fs ha hsteps hφ
    cases ha with
    | @store _ s f _ _ fs _ segment offset more =>
      cases more
      have hs : s = 1 := by simpa using hsteps.2
      subst hs
      have hx := rename_operand slot (hset hφ)
      refine .cons ?_ .nil
      have hspread : Inst.Spreads φ k 1 0 (.store { f with stride := 1 } (s.operand next) 1)
          (.store dst ((s.operand next).rename φ) 1) := .store segment (hindex stride offset)
      rwa [hx] at hspread
  | @load set dst src insts ps stride more ih =>
    intro steps fs ha hsteps hφ
    cases ha with
    | @load steps s f _ fs _ segment offset rest =>
      have hsteps := more.steps_tail rest.length_eq.2 hsteps
      have hdst : φ (next + set.length) = dst := hφ _ _ (by simp [Block.targets, Inst.targets])
      refine .cons ?_ (ih rest hsteps fun p r hp =>
        hφ p r (by simpa [Block.targets, Inst.targets] using hp))
      have hspread : Inst.Spreads φ k 1 0 (.load (next + set.length) { f with stride := s }
        (if s = 1 then 1 else 1))
          (.load (φ (next + set.length)) src 1 : Inst α) := .load segment (hindex stride offset)
      rwa [hdst] at hspread
  | @binary set dst op x y l r insts ps left right more ih =>
    intro steps fs ha hsteps hφ
    cases ha with
    | @binary _ _ _ _ fs _ rest =>
      have hdst : φ (next + set.length) = dst := hφ _ _ (by simp [Block.targets, Inst.targets])
      have hx := rename_operand left (hset hφ)
      have hy := rename_operand right (hset hφ)
      refine .cons ?_ (ih rest hsteps fun p r hp =>
        hφ p r (by simpa [Block.targets, Inst.targets] using hp))
      have hspread : Inst.Spreads φ k 1 0 (.binary (next + set.length) op (l.operand next)
        (r.operand next))
          (.binary (φ (next + set.length)) op ((l.operand next).rename φ)
            ((r.operand next).rename φ)) := .binary
      rwa [hdst, hx, hy] at hspread

end Chunk
end Emit

section Lane

variable [Scalar α] {context : Context α} {S : Set α} {info info' : Reg → Info α} {set : List Reg}
  {insts : List (Inst α)} {ps fs : List (Piece α)} {steps : List Int} {next k w : Nat}

/-- The pieces of one chunk of a bundle, the `k`th, as they are `k` steps behind those of the
first. -/
structure Lane (context : Context α) (S : Set α) (info : Reg → Info α) (k : Nat) (steps : List Int)
    (fs ps : List (Piece α)) : Prop where
  aligned : Aligned k steps fs ps
  chunk : ∃ set insts, Chunk set insts ps ∧ ∀ inst ∈ insts, inst.Plain context S info none

namespace Lane

/-- Where the `k`th chunk accesses memory, given where the first does. -/
structure Access (context : Context α) (k : Nat) (f : Address) (s : Int) (a : Address)
    (writes : Bool) : Prop where
  segment : a.segment = f.segment
  offset : a.offset = f.offset + k * s
  inside : ∃ seg, context.segments[f.segment]? = some seg ∧
    (writes = true → seg.role.isWritable = true) ∧
    0 ≤ a.offset ∧ a.offset < seg.size ∧ a.offset < signBound

omit [Scalar α] in
theorem access_of_reaches {f a : Address} {s : Int} {writes : Bool}
    (segment : a.segment = f.segment) (offset : a.offset = f.offset + k * s)
    (h : Reaches context.segments none a 1 writes) :
    Access context k f s a writes := by
  obtain ⟨seg, hs, hw, hin⟩ := h.segment
  have h0 := hin 0 Nat.one_pos
  simp only [Address.position, Nat.cast_zero, zero_mul, add_zero] at h0
  exact ⟨segment, offset, seg, segment ▸ hs, hw, h0⟩

theorem load {s : Int} {f : Address} (h : Lane context S info k (s :: steps) (.load f :: fs) ps) :
    ∃ a ps', ps = .load a :: ps' ∧ Access context k f s a false ∧
    Lane context S info k steps fs ps' := by
  obtain ⟨ha, set, insts, hc, hp⟩ := h
  cases ha with
  | @load _ _ _ a _ ps segment offset more =>
    cases hc with
    | load stride rest =>
      obtain ⟨h₁, h₂⟩ := List.forall_mem_cons.mp hp
      exact ⟨a, ps, rfl, access_of_reaches segment offset h₁.1, more, _, _, rest, h₂⟩

theorem binary {op : Arith} {l r : Slot α}
    (h : Lane context S info k steps (.binary op l r :: fs) ps) :
    ∃ ps', ps = .binary op l r :: ps' ∧ Lane context S info k steps fs ps' := by
  obtain ⟨ha, set, insts, hc, hp⟩ := h
  cases ha with
  | @binary _ _ _ _ _ ps more =>
    cases hc with
    | binary left right rest => exact ⟨ps, rfl, more, _, _, rest, (List.forall_mem_cons.mp hp).2⟩

theorem store {s : Int} {f : Address} {x : Slot α}
    (h : Lane context S info k (s :: steps) (.store f x :: fs) ps) :
    ∃ a, ps = [.store a x] ∧ Access context k f s a true := by
  obtain ⟨ha, set, insts, hc, hp⟩ := h
  cases ha with
  | @store _ _ _ a _ _ _ segment offset more =>
    cases hc with
    | store stride slot =>
      exact ⟨a, rfl, access_of_reaches segment offset (hp _ List.mem_cons_self).1⟩

end Lane

/-- All chunks of a bundle. -/
def AllLanes (context : Context α) (S : Set α) (info : Reg → Info α) (w : Nat) (steps : List Int)
    (fs : List (Piece α)) : Prop := ∀ k < w, ∃ ps, Lane context S info k steps fs ps

omit [Scalar α] in
theorem reaches_of_lanes {f : Address} {s : Int} {writes : Bool} (hw : w ≠ 0) (hs : s = 0 ∨ s = 1)
    (h : ∀ k < w, ∃ a, Lane.Access context k f s a writes) :
    Reaches context.segments none { f with stride := s } (if s = 1 then w else 1) writes := by
  obtain ⟨-, -, -, seg, hseg, hwr, -⟩ := h 0 (Nat.pos_of_ne_zero hw)
  refine ⟨by split <;> omega, by simp, seg, hseg, hwr, fun n hn => ?_⟩
  have hk : ∃ k < w, (k : Int) * s = n * s := by
    simp only [span] at hn
    rcases hs with rfl | rfl
    · exact ⟨0, Nat.pos_of_ne_zero hw, by simp⟩
    · exact ⟨n, by simpa using hn, rfl⟩
  obtain ⟨k, hk, hmul⟩ := hk
  obtain ⟨a, -, hoff, seg', hseg', -, h0, h1, h2⟩ := h k hk
  rw [hseg] at hseg'
  cases hseg'
  simp only [Address.position, ← hmul]
  omega

namespace AllLanes

theorem load {s : Int} {f : Address} (h : AllLanes context S info w (s :: steps) (.load f :: fs)) :
    (∀ k < w, ∃ a, Lane.Access context k f s a false) ∧ AllLanes context S info w steps fs := by
  refine ⟨fun k hk => ?_, fun k hk => ?_⟩
  · obtain ⟨_, hl⟩ := h k hk
    obtain ⟨a, _, -, ha, -⟩ := hl.load
    exact ⟨a, ha⟩
  · obtain ⟨_, hl⟩ := h k hk
    obtain ⟨_, ps, -, -, hl⟩ := hl.load
    exact ⟨ps, hl⟩

theorem binary {op : Arith} {l r : Slot α}
    (h : AllLanes context S info w steps (.binary op l r :: fs)) :
    AllLanes context S info w steps fs := by
  intro k hk
  obtain ⟨_, hl⟩ := h k hk
  obtain ⟨ps, -, hl⟩ := hl.binary
  exact ⟨ps, hl⟩

theorem store {s : Int} {f : Address} {x : Slot α} (h : AllLanes context S info w (s :: steps)
    (.store f x :: fs)) :
    ∀ k < w, ∃ a, Lane.Access context k f s a true := by
  intro k hk
  obtain ⟨_, hl⟩ := h k hk
  obtain ⟨a, -, ha⟩ := hl.store
  exact ⟨a, ha⟩

end AllLanes

/-- What is known of the registers of a bundle: those of the first chunk's numbers, with a lane for
each chunk. -/
def Carries (info info' : Reg → Info α) (next w : Nat) (rs : List Reg) : Prop :=
  ∀ (p : Nat) (r : Reg), rs[p]? = some r → (info' (next + p)).lanes = w ∧
  (info' (next + p)).numbers = (info r).numbers

omit [Scalar α] in
theorem Carries.operand {rs : List Reg} (h : Carries info info' next w (set.reverse ++ rs))
    {x : Operand α} {s : Slot α} (hs : slot? set x = some s) :
    ((s.operand next).lanes info' = 1 ∨ (s.operand next).lanes info' = w) ∧
      (s.operand next).numbers info' = x.numbers info := by
  rcases slot?_eq_some hs with ⟨v, rfl, rfl⟩ | ⟨r, p, rfl, rfl, hp⟩
  · exact ⟨Or.inl rfl, rfl⟩
  · have := h p r (by rw [List.getElem?_append_left (List.getElem?_eq_some_iff.mp hp).1, hp])
    exact ⟨Or.inr this.1, this.2⟩

theorem Chunk.plain_emit (h : Chunk set insts ps) (hw : w ≠ 0) : ∀ {steps : List Int},
    (∀ inst ∈ insts, inst.Plain context S info none) → AllLanes context S info w steps ps →
    Steps steps → Carries info info' next w (set.reverse ++ Block.targets insts) →
    ∀ inst ∈ emit next w set.length ps steps, inst.Plain context S info' none := by
  induction h with
  | @store set dst x s stride slot =>
    intro steps hp hl hsteps hc
    obtain ⟨_, hlane⟩ := hl 0 (Nat.pos_of_ne_zero hw)
    obtain rfl := hsteps.eq_singleton hlane.aligned.length_eq.1
    obtain ⟨hlanes, hnumbers⟩ := hc.operand slot
    have hreach := reaches_of_lanes hw (Or.inr rfl) hl.store
    simp only [emit, List.mem_singleton, forall_eq]
    exact ⟨hreach, hlanes, hnumbers ▸ (hp _ List.mem_cons_self).2.2⟩
  | @load set dst src insts ps stride more ih =>
    intro steps hp hl hsteps hc
    cases steps with
    | nil => simp [emit]
    | cons s steps =>
      obtain ⟨hp₁, hp⟩ := List.forall_mem_cons.mp hp
      obtain ⟨hacc, hl⟩ := hl.load
      have hs : s = 0 ∨ s = 1 := hsteps.1 s List.mem_cons_self
      obtain ⟨_, hlane⟩ := hl 0 (Nat.pos_of_ne_zero hw)
      have hsteps := more.steps_tail hlane.aligned.length_eq.1 hsteps
      obtain ⟨hlanes, hnumbers⟩ := hc set.length dst (by simp [Block.targets, Inst.targets])
      refine List.forall_mem_cons.mpr ⟨⟨reaches_of_lanes hw hs hacc, ?_, ?_, ?_⟩,
        ih hp hl hsteps (by simpa [Block.targets, Inst.targets] using hc)⟩
      · split
        · exact Or.inr hlanes.symm
        · exact Or.inl rfl
      · intro h0
        have h0 : s = 0 := h0
        simp [h0]
      · intro v hv
        obtain ⟨-, -, h0, -⟩ := constantAt?_eq_some hv
        have h0 : s = 0 := h0
        rw [hnumbers]
        refine hp₁.2.2.2 v ?_
        rwa [h0, ← stride] at hv
  | @binary set dst op x y l r insts ps left right more ih =>
    intro steps hp hl hsteps hc
    obtain ⟨hp₁, hp⟩ := List.forall_mem_cons.mp hp
    obtain ⟨-, hS, hd, hop⟩ := hp₁
    obtain ⟨hlanes, hnumbers⟩ := hc set.length dst (by simp [Block.targets, Inst.targets])
    obtain ⟨hx, hxn⟩ := hc.operand left
    obtain ⟨hy, hyn⟩ := hc.operand right
    refine List.forall_mem_cons.mpr ⟨⟨⟨by omega, by omega⟩, ?_, ?_, ?_⟩,
      ih hp hl.binary hsteps (by simpa [Block.targets, Inst.targets] using hc)⟩
    · rwa [hxn, hyn]
    · rw [hxn, hyn, hnumbers]
      exact hd
    · rw [hxn, hyn, hnumbers]
      exact hop

omit [Scalar α] in
/-- At a count, the bundle's code accesses what the chunk of that count does. -/
theorem Lane.Access.index_eq {f a : Address} {s : Int} {writes : Bool}
    (h : Lane.Access context k f s a writes) :
    0 ≤ a.offset ∧ Address.index { f with stride := s } k 0 = a.offset := by
  obtain ⟨-, hoffset, -, -, -, h0, -, h2⟩ := h
  refine ⟨h0, ?_⟩
  have hs : (0 : Int) ≤ signBound := by simp [signBound]
  simp only [Address.index, Nat.add_zero, ← hoffset]
  exact wrap_of_lt (by omega) h2

theorem Chunk.place_of_store (h : Chunk set insts ps) :
    ∀ {steps : List Int} {qs : List (Piece α)} {p : Nat}, Lane context S info k steps ps qs →
    Steps steps → ∀ inst ∈ emit next 1 p ps steps, inst.isStore = true → ∃ t, target? qs = some t ∧
    inst.place? k = some (t.1, t.2.toNat) ∧ 0 ≤ t.2 := by
  induction h with
  | @store set dst x s stride slot =>
    intro steps qs p hl hsteps inst hi _
    obtain rfl := hsteps.eq_singleton hl.aligned.length_eq.1
    obtain ⟨a, rfl, ha⟩ := hl.store
    obtain ⟨h0, hindex⟩ := ha.index_eq
    have hi : inst = .store { dst with stride := 1 } (s.operand next) 1 := by simpa [emit] using hi
    refine ⟨(a.segment, a.offset), rfl, ?_, h0⟩
    simp only [hi, Inst.place?, Inst.access?, Option.map_some, hindex, ha.segment]
  | @load set dst src insts ps stride more ih =>
    intro steps qs p hl hsteps inst hi hstore
    cases steps with
    | nil => simp [emit] at hi
    | cons s steps =>
      obtain ⟨a, qs, rfl, -, hl⟩ := hl.load
      rcases List.mem_cons.mp hi with rfl | hi
      · cases hstore
      · exact ih hl (more.steps_tail hl.aligned.length_eq.1 hsteps) inst hi hstore
  | @binary set dst op x y l r insts ps left right more ih =>
    intro steps qs p hl hsteps inst hi hstore
    obtain ⟨qs, rfl, hmore⟩ := hl.binary
    rcases List.mem_cons.mp hi with rfl | hi
    · cases hstore
    · exact ih hmore hsteps inst hi hstore

/-- What a chunk loads is apart from what one before it stores elsewhere. -/
theorem Chunk.apart_load (h : Chunk set insts ps) {qs : List (Piece α)} {k' p n : Nat} {dst : Reg}
    {src a : Address} {s : Int} (hl : Lane context S info k steps ps qs) (hsteps : Steps steps)
    (ha : Lane.Access context k' src s a false) (hne : target? qs ≠ some (a.segment, a.offset)) :
    ∀ inst ∈ emit next 1 p ps steps, inst.Apart k (.load dst { src with stride := s } n) k' := by
  intro inst hi hstore place hplace hplace'
  have hs : inst.isStore = true := hstore.resolve_right (by simp [Inst.isStore])
  obtain ⟨t, ht, htp, h0⟩ := h.place_of_store hl hsteps inst hi hs
  obtain ⟨h0', hindex⟩ := ha.index_eq
  rw [htp] at hplace
  simp only [Inst.place?, Inst.access?, Option.map_some, hindex, Option.some.injEq]
    at hplace hplace'
  rw [← hplace] at hplace'
  obtain ⟨hseg, hoff⟩ := Prod.mk.inj hplace'
  have heq : t = (a.segment, a.offset) := Prod.ext (by rw [ha.segment, hseg]) (by simp only; omega)
  exact hne (heq ▸ ht)

/-- No chunk loads what one before it stores; so the chunks can be taken together. -/
theorem Chunk.apart_emit (h : Chunk set insts ps) (next : Nat) :
    ∀ {steps : List Int} {qs : Nat → List (Piece α)} (p : Nat),
    (∀ k < w, Lane context S info k steps ps (qs k)) → Steps steps →
    (∀ k k', k < k' → k' < w → ∀ t, target? (qs k) = some t → t ∉ sources (qs k')) →
    (emit next 1 p ps steps).Pairwise fun inst inst' => (List.range' 0 w).Pairwise fun k k' =>
      k ≠ k' ∧ inst'.Apart k inst k' := by
  have hrange : ∀ {P : Nat → Nat → Prop}, (∀ k k', k < k' → k' < w → P k k') →
      (List.range' 0 w).Pairwise P := by
    intro P hP
    have hlt : (List.range' 0 w).Pairwise (· < ·) := List.pairwise_lt_range'
    exact hlt.imp_of_mem fun {k k'} _ hk' hkk' => hP k k' hkk' (by simpa using hk')
  induction h with
  | store stride slot =>
    intro steps qs p _ _ _
    cases steps with
    | nil => exact .nil
    | cons s steps => simp [emit]
  | @load set dst src insts ps stride more ih =>
    intro steps qs p hl hsteps hind
    cases steps with
    | nil => exact .nil
    | cons s steps =>
      have hparts : ∀ k < w, ∃ a, qs k = .load a :: (qs k).tail ∧
        Lane.Access context k src s a false ∧ Lane context S info k steps ps (qs k).tail := by
        intro k hk
        obtain ⟨a, qs', he, ha, hl⟩ := (hl k hk).load
        rw [he]
        exact ⟨a, rfl, ha, hl⟩
      by_cases hw : w = 0
      · subst hw
        simp [List.pairwise_iff_forall_sublist]
      · obtain ⟨-, -, -, hfirst⟩ := hparts 0 (Nat.pos_of_ne_zero hw)
        have hsteps := more.steps_tail hfirst.aligned.length_eq.1 hsteps
        refine List.pairwise_cons.mpr ⟨fun inst' hi' => hrange fun k k' hlt hk' => ⟨hlt.ne, ?_⟩,
          ih _ (fun k hk => (hparts k hk).choose_spec.2.2) hsteps ?_⟩
        · obtain ⟨a, he, -, hlk⟩ := hparts k (by omega)
          obtain ⟨a', he', ha', -⟩ := hparts k' hk'
          refine more.apart_load hlk hsteps ha'
            (fun ht => hind k k' hlt hk' _ (by rw [he]; exact ht) ?_) inst' hi'
          rw [he']
          exact List.mem_cons_self
        · intro k k' hlt hk' t ht hmem
          obtain ⟨a, he, -, -⟩ := hparts k (by omega)
          obtain ⟨a', he', -, -⟩ := hparts k' hk'
          refine hind k k' hlt hk' t (by rw [he]; exact ht) ?_
          rw [he']
          exact List.mem_cons_of_mem _ hmem
  | @binary set dst op x y l r insts ps left right more ih =>
    intro steps qs p hl hsteps hind
    have hparts : ∀ k < w, qs k = .binary op l r :: (qs k).tail ∧
        Lane context S info k steps ps (qs k).tail := by
      intro k hk
      obtain ⟨qs', he, hl⟩ := (hl k hk).binary
      rw [he]
      exact ⟨rfl, hl⟩
    refine List.pairwise_cons.mpr ⟨fun inst' _ => hrange fun k k' hlt hk' => ⟨hlt.ne, ?_⟩,
      ih _ (fun k hk => (hparts k hk).2) hsteps ?_⟩
    · intro _ place _ hplace'
      cases hplace'
    · intro k k' hlt hk' t ht hmem
      refine hind k k' hlt hk' t (by rw [(hparts k (by omega)).1]; exact ht) ?_
      rw [(hparts k' hk').1]
      exact hmem

end Lane

end Pack
end StreamStats
