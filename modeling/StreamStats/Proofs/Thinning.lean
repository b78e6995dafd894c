import StreamStats.Proofs.Imitation
import StreamStats.Transform.DeadStores

/-! Code from which instructions were left out. Some registers and some segments are still read;
what is left out sets other registers, writes to other segments, or is a loop that does nothing.
Frames then agree on the registers that are read and memories on the segments. -/

namespace StreamStats

open Exec

variable {α : Type}

/-- Two states that agree in some registers, with memories that are related. -/
def AgreeOn (S : Memory α → Memory α → Prop) (U : Set Reg) (f : Frame α) (m : Memory α)
    (g : Frame α) (n : Memory α) : Prop :=
  (∀ r ∈ U, f.get? r = g.get? r) ∧ S m n

namespace AgreeOn

variable {S : Memory α → Memory α → Prop} {U V : Set Reg} {f g : Frame α} {m n : Memory α}

theorem mono (h : V ⊆ U) (ha : AgreeOn S U f m g n) : AgreeOn S V f m g n :=
  ⟨fun r hr => ha.1 r (h hr), ha.2⟩

theorem set (ha : AgreeOn S U f m g n) (r : Reg) (xs : List α) :
    AgreeOn S U (f.set r xs) m (g.set r xs) n := by
  refine ⟨fun r' hr' => ?_, ha.2⟩
  rw [RegMap.get?_set, RegMap.get?_set, ha.1 r' hr']

theorem set_left (ha : AgreeOn S U f m g n) {r : Reg} (hr : r ∉ U) (xs : List α) :
    AgreeOn S U (f.set r xs) m g n := by
  refine ⟨fun r' hr' => ?_, ha.2⟩
  have hne : r' ≠ r := by
    rintro rfl
    exact hr hr'
  rw [RegMap.get?_set, if_neg hne, ha.1 r' hr']

theorem value?_eq (ha : AgreeOn S U f m g n) (x : Operand α) (hx : ∀ r, x.reg? = some r → r ∈ U) :
    Frame.value? f x = Frame.value? g x :=
  Frame.value?_congr fun r hr => ha.1 r (hx r hr)

end AgreeOn

namespace Memory

variable {segments : Array (Segment α)} {D : Set Nat} {m n : Memory α}

theorem Fits.sizeOf_eq_sizeOf (h : m.Fits segments) (h' : n.Fits segments) (s : Nat) :
    m.sizeOf s = n.sizeOf s := by
  by_cases hs : s < segments.size
  · rw [h.sizeOf_eq s _ (Array.getElem?_eq_getElem hs),
      h'.sizeOf_eq s _ (Array.getElem?_eq_getElem hs)]
  · have hm : m[s]? = none := Array.getElem?_eq_none (by rw [h.size_eq]; omega)
    have hn : n[s]? = none := Array.getElem?_eq_none (by rw [h'.size_eq]; omega)
    simp [sizeOf, hm, hn]

theorem SameOff.holds (h : SameOff segments D m n) {a : Address} {count lanes : Nat}
    (ha : m.Holds a count lanes) : n.Holds a count lanes := by
  intro lane hl
  rw [← h.left.sizeOf_eq_sizeOf h.right]
  exact ha lane hl

theorem SameOff.valueAt_eq [Scalar α] (h : SameOff segments D m n) {a : Address}
    (ha : a.segment ∉ D) :
    n.valueAt a = m.valueAt a := by
  funext count lane
  simp [valueAt, value, h.eq a.segment ha]

theorem getElem?_writeFrom_congr {s : Nat} (dst : Address) (count : Nat) (values : List α) :
    ∀ (lane : Nat) {m n : Memory α}, n[s]? = m[s]? →
      (writeFrom dst count lane values n)[s]? = (writeFrom dst count lane values m)[s]? := by
  induction values with
  | nil => exact fun _ _ _ h => h
  | cons value values ih =>
    intro lane m n h
    refine ih (lane + 1) ?_
    rw [getElem?_write, getElem?_write, h]

theorem SameOff.writeFrom (h : SameOff segments D m n) {dst : Address} {seg : Segment α}
    (hs : segments[dst.segment]? = some seg) (hw : seg.role.isWritable = true) (count : Nat)
    (values : List α) :
    SameOff segments D (writeFrom dst count 0 values m) (writeFrom dst count 0 values n) :=
  ⟨h.left.keeps (.writeFrom hs hw _ _ _ _), h.right.keeps (.writeFrom hs hw _ _ _ _),
    fun s hs => getElem?_writeFrom_congr dst count values 0 (h.eq s hs)⟩

theorem SameOff.writeFrom_left (h : SameOff segments D m n) {dst : Address} (hd : dst.segment ∈ D)
    {seg : Segment α} (hs : segments[dst.segment]? = some seg) (hw : seg.role.isWritable = true)
    (count : Nat) (values : List α) :
    SameOff segments D (Memory.writeFrom dst count 0 values m) n := by
  refine ⟨h.left.keeps (.writeFrom hs hw _ _ _ _), h.right, fun s hs => ?_⟩
  have hne : dst.segment ≠ s := by
    rintro rfl
    exact hs hd
  rw [getElem?_writeFrom_of_ne hne, h.eq s hs]

end Memory

namespace Inst

/-- An instruction that sets a register that is not read, or writes to a segment that is not. -/
def Idle (U : Set Reg) (D : Set Nat) : Inst α → Prop
  | .load dst _ _ | .binary dst _ _ _ => dst ∉ U
  | .store dst _ _ => dst.segment ∈ D
  | .call _ | .loop _ _ _ _ => False

end Inst

/-- The second block is the first without some of what has no effect on the registers of `U` and on
the segments outside of `D`. Nothing that stays reads other registers or segments. -/
inductive Thins (U : Set Reg) (D : Set Nat) : Block α → Block α → Prop
  | nil : Thins U D [] []
  | keep {inst : Inst α} {rest rest' : Block α} (flat : inst.iterations? = none)
      (uses : ∀ r ∈ inst.uses, r ∈ U) (reads : ∀ s ∈ inst.reads, s ∉ D)
      (more : Thins U D rest rest') : Thins U D (inst :: rest) (inst :: rest')
  | loop {trips step : Nat} {parallel : Bool} {body body' rest rest' : Block α}
      (inside : Thins U D body body') (more : Thins U D rest rest') :
      Thins U D (.loop trips step parallel body :: rest) (.loop trips step parallel body' :: rest')
  | drop {inst : Inst α} {rest rest' : Block α} (idle : inst.Idle U D)
      (more : Thins U D rest rest') : Thins U D (inst :: rest) rest'
  | dropEmpty {trips step : Nat} {parallel : Bool} {body rest rest' : Block α}
      (inside : Thins U D body []) (more : Thins U D rest rest') :
      Thins U D (.loop trips step parallel body :: rest) rest'
  | dropIdle {step : Nat} {parallel : Bool} {body rest rest' : Block α}
      (more : Thins U D rest rest') : Thins U D (.loop 0 step parallel body :: rest) rest'

namespace Thins

variable {U : Set Reg} {D : Set Nat} {old new : Block α}

theorem targets_sublist (h : Thins U D old new) :
    (Block.targets new).Sublist (Block.targets old) := by
  induction h with
  | nil => exact .slnil
  | keep _ _ _ _ ih => exact (List.Sublist.refl _).append ih
  | loop _ _ ihb ihr => exact List.Sublist.append (by simpa [Inst.targets] using ihb) ihr
  | drop _ _ ih => exact ih.trans (List.sublist_append_right _ _)
  | dropEmpty _ _ _ ih => exact ih.trans (List.sublist_append_right _ _)
  | dropIdle _ ih => exact ih.trans (List.sublist_append_right _ _)

theorem scope {closed : Bool} (h : Thins U D old new) :
    ∀ {V W : Set Reg}, Block.Scoped closed V old → V ∩ U ⊆ W → Block.Scoped closed W new := by
  induction h with
  | nil => exact fun _ _ => trivial
  | @keep inst rest rest' flat uses reads more ih =>
    intro V W hs hW
    have hreads : ∀ x ∈ inst.operands, x.Reads V → x.Reads W := by
      intro x hx hV
      cases x with
      | imm _ => trivial
      | reg r => exact hW ⟨hV, uses r (List.mem_filterMap.mpr ⟨_, hx, rfl⟩)⟩
    refine ⟨?_, ih hs.2 ?_⟩
    · cases inst with
      | load _ _ _ => trivial
      | call _ => trivial
      | store dst x n => exact hreads x (by simp [Inst.operands]) hs.1
      | binary dst op x y =>
        exact ⟨hreads x (by simp [Inst.operands]) hs.1.1, hreads y (by simp [Inst.operands]) hs.1.2⟩
      | loop _ _ _ _ => cases flat
    · rintro r ⟨hV | ht, hU⟩
      · exact Or.inl (hW ⟨hV, hU⟩)
      · exact Or.inr ht
  | loop _ _ ihb ihr =>
    intro V W hs hW
    refine ⟨ihb hs.1 ?_, ihr hs.2 (by simpa [Inst.define, Inst.target?] using hW)⟩
    cases closed with
    | true => simp
    | false => simpa using hW
  | @drop inst rest rest' idle _ ih =>
    intro V W hs hW
    refine ih hs.2 ?_
    rintro r ⟨hV | ht, hU⟩
    · exact hW ⟨hV, hU⟩
    · cases inst <;> simp only [Inst.target?, Option.some.injEq, reduceCtorEq] at ht
      all_goals exact absurd (ht ▸ hU) idle
  | dropEmpty _ _ _ ih =>
    intro V W hs hW
    exact ih hs.2 (by simpa [Inst.define, Inst.target?] using hW)
  | dropIdle _ ih =>
    intro V W hs hW
    exact ih hs.2 (by simpa [Inst.define, Inst.target?] using hW)

theorem each {P : Option Check.Shape → Inst α → Prop}
    (hloop : ∀ {shape trips step parallel body body'}, P shape (.loop trips step parallel body) →
      P shape (.loop trips step parallel body')) (h : Thins U D old new) :
    ∀ {shape : Option Check.Shape}, Block.Each P shape old → Block.Each P shape new := by
  induction h with
  | nil => exact fun _ => trivial
  | keep _ _ _ _ ih => exact fun ho => ⟨ho.1, ih ho.2⟩
  | loop _ _ ihb ihr => exact fun ho => ⟨⟨hloop ho.1.1, ihb ho.1.2⟩, ihr ho.2⟩
  | drop _ _ ih => exact fun ho => ih ho.2
  | dropEmpty _ _ _ ih => exact fun ho => ih ho.2
  | dropIdle _ ih => exact fun ho => ih ho.2

theorem mem_of_flat (h : Thins U D old new) :
    (∀ inst ∈ old, inst.iterations? = none) → ∀ inst ∈ new, inst ∈ old := by
  induction h with
  | nil => exact fun _ _ hi => hi
  | keep _ _ _ _ ih =>
    intro hf inst hi
    rcases List.mem_cons.mp hi with rfl | hi
    · exact List.mem_cons_self
    · exact List.mem_cons_of_mem _ (ih (fun i hi => hf i (List.mem_cons_of_mem _ hi)) inst hi)
  | drop _ _ ih =>
    exact fun hf inst hi =>
      List.mem_cons_of_mem _ (ih (fun i hi => hf i (List.mem_cons_of_mem _ hi)) inst hi)
  | loop _ _ _ _ => exact fun hf => absurd (hf _ List.mem_cons_self) (by simp [Inst.iterations?])
  | dropEmpty _ _ _ _ =>
    exact fun hf => absurd (hf _ List.mem_cons_self) (by simp [Inst.iterations?])
  | dropIdle _ _ => exact fun hf => absurd (hf _ List.mem_cons_self) (by simp [Inst.iterations?])

theorem tame [Scalar α] {context : Context α} {S : Set α} {info : Reg → Info α}
    (h : Thins U D old new) :
    (∀ inst ∈ old, inst.Tame context S info) → ∀ inst ∈ new, inst.Tame context S info := by
  induction h with
  | nil => exact fun h => h
  | keep _ _ _ _ ih =>
    intro ht inst hi
    rcases List.mem_cons.mp hi with rfl | hi
    · exact ht _ List.mem_cons_self
    · exact ih (fun i hi => ht i (List.mem_cons_of_mem _ hi)) inst hi
  | loop inside _ _ ih =>
    intro ht inst hi
    rcases List.mem_cons.mp hi with rfl | hi
    · obtain ⟨hstep, inner, hb⟩ := ht _ List.mem_cons_self
      exact ⟨hstep, inner, fun i hi => hb i (inside.mem_of_flat (fun i hi => (hb i hi).flat) i hi)⟩
    · exact ih (fun i hi => ht i (List.mem_cons_of_mem _ hi)) inst hi
  | drop _ _ ih => exact fun ht => ih fun i hi => ht i (List.mem_cons_of_mem _ hi)
  | dropEmpty _ _ _ ih => exact fun ht => ih fun i hi => ht i (List.mem_cons_of_mem _ hi)
  | dropIdle _ ih => exact fun ht => ih fun i hi => ht i (List.mem_cons_of_mem _ hi)

end Thins

@[simp] theorem Block.mem_uses_cons {inst : Inst α} {rest : List (Inst α)} {r : Reg} :
    r ∈ Block.uses (inst :: rest) ↔ r ∈ inst.uses ∨ r ∈ Block.uses rest := by
  simp [Block.uses, Block.operands, Inst.uses]

mutual

theorem Inst.thins_refl {U : Set Reg} {D : Set Nat} : ∀ {inst : Inst α} {rest rest' : Block α},
    (∀ r ∈ inst.uses, r ∈ U) → (∀ s ∈ inst.reads, s ∉ D) → Thins U D rest rest' →
    Thins U D (inst :: rest) (inst :: rest')
  | .load _ _ _, _, _, hu, hr, h | .store _ _ _, _, _, hu, hr, h | .binary _ _ _ _, _, _, hu, hr, h
  | .call _, _, _, hu, hr, h => .keep rfl hu hr h
  | .loop _ _ _ _, _, _, hu, hr, h => .loop (Block.thins_refl hu hr) h

theorem Block.thins_refl {U : Set Reg} {D : Set Nat} : ∀ {body : List (Inst α)},
    (∀ r ∈ Block.uses body, r ∈ U) → (∀ s ∈ Block.reads body, s ∉ D) → Thins U D body body
  | [], _, _ => .nil
  | _ :: _, hu, hr => Inst.thins_refl (fun r h => hu r (Block.mem_uses_cons.mpr (Or.inl h)))
      (fun s h => hr s (List.mem_append_left _ h))
      (Block.thins_refl (fun r h => hu r (Block.mem_uses_cons.mpr (Or.inr h)))
        fun s h => hr s (List.mem_append_right _ h))

end

theorem Block.Scoped.of_uses {closed : Bool} {V W : Set Reg} {body : Block α}
    (h : Block.Scoped closed V body) (hW : ∀ r ∈ V, r ∈ Block.uses body → r ∈ W) :
    Block.Scoped closed W body :=
  (Block.thins_refl (U := {r | r ∈ Block.uses body}) (D := ∅) (fun _ hr => hr) (by simp)).scope h
    fun r hr => hW r hr.1 hr.2

/-- A relation of memories for which the segments of `D` do not matter. Loads from others find the
same; it is kept when both are written alike, or when the first alone is written in a segment of
`D`, by stores of which `P` holds. -/
structure Memory.Masks [Scalar α] (P : Option Check.Shape → Inst α → Prop) (D : Set Nat)
    (S : Memory α → Memory α → Prop) : Prop where
  holds : ∀ {m n : Memory α}, S m n → ∀ {a : Address} {count lanes : Nat}, m.Holds a count lanes →
    n.Holds a count lanes
  valueAt_eq : ∀ {m n : Memory α}, S m n → ∀ {a : Address}, a.segment ∉ D →
    n.valueAt a = m.valueAt a
  writeFrom : ∀ {m n : Memory α}, S m n →
    ∀ {shape : Option Check.Shape} {dst : Address} {x : Operand α} {k : Nat},
    P shape (.store dst x k) → ∀ (count : Nat) (values : List α),
      S (writeFrom dst count 0 values m) (writeFrom dst count 0 values n)
  writeFrom_left : ∀ {m n : Memory α}, S m n →
    ∀ {shape : Option Check.Shape} {dst : Address} {x : Operand α} {k : Nat},
    P shape (.store dst x k) → dst.segment ∈ D → ∀ (count : Nat) (values : List α),
      S (Memory.writeFrom dst count 0 values m) n

theorem Memory.masks_sameOff [Scalar α] (segments : Array (Segment α)) (D : Set Nat) :
    Masks (Inst.Writes segments) D (SameOff segments D) where
  holds h := h.holds
  valueAt_eq h := h.valueAt_eq
  writeFrom h _ _ _ _ := fun ⟨_, hs, hw⟩ => h.writeFrom hs hw
  writeFrom_left h _ _ _ _ := fun ⟨_, hs, hw⟩ hd => h.writeFrom_left hd hs hw

section Runs

variable [Scalar α] {P : Option Check.Shape → Inst α → Prop} {S : Memory α → Memory α → Prop}
  {call call' : String → Exec α Unit} {name name' : String} {U : Set Reg} {D : Set Nat}
  {shape : Option Check.Shape} {count : Nat} {f g : Frame α} {m n : Memory α}

namespace Inst

/-- An instruction that stays does what it did. -/
theorem keep_follows (hS : Memory.Masks P D S) (hcall : CallsFollow S call call') {inst : Inst α}
    (flat : inst.iterations? = none) (uses : ∀ r ∈ inst.uses, r ∈ U)
    (reads : ∀ s ∈ inst.reads, s ∉ D) (hw : inst.Each P shape) (ha : AgreeOn S U f m g n) :
    Follows (AgreeOn S U) (inst.exec call name count f) m (inst.exec call' name' count g) n := by
  have hvalue : ∀ x ∈ inst.operands, Frame.value? f x = Frame.value? g x := fun x hx =>
    ha.value?_eq x fun r hr => uses r (List.mem_filterMap.mpr ⟨x, hx, hr⟩)
  intro f' m' h
  cases inst with
  | load dst src k =>
    obtain ⟨hm, rfl, rfl⟩ := exec_load_iff.mp h
    have hval := hS.valueAt_eq ha.2 (a := src) (reads _ (by simp [Inst.reads]))
    refine ⟨_, _, exec_load_iff.mpr ⟨hS.holds ha.2 hm, rfl, rfl⟩, ?_⟩
    rw [hval]
    exact ha.set _ _
  | store dst x k =>
    obtain ⟨xs, hx, hl, hm, rfl, rfl⟩ := exec_store_iff.mp h
    rw [hvalue x (by simp [operands])] at hx
    exact ⟨_, _, exec_store_iff.mpr ⟨xs, hx, hl, hS.holds ha.2 hm, rfl, rfl⟩, ha.1,
      hS.writeFrom ha.2 hw _ _⟩
  | binary dst op x y =>
    obtain ⟨xs, ys, zs, hx, hy, hz, rfl, rfl⟩ := exec_binary_iff.mp h
    rw [hvalue x (by simp [operands])] at hx
    rw [hvalue y (by simp [operands])] at hy
    exact ⟨_, _, exec_binary_iff.mpr ⟨xs, ys, zs, hx, hy, hz, rfl, rfl⟩, ha.set _ _⟩
  | call callee =>
    obtain ⟨rfl, hc⟩ := exec_call_iff.mp h
    obtain ⟨u, n', hn', hs⟩ := hcall callee m n ha.2 _ _ hc
    exact ⟨g, n', exec_call_iff.mpr ⟨rfl, hn'⟩, ha.1, hs⟩
  | loop _ _ _ _ => cases flat

/-- An instruction that is left out changed nothing that is read. -/
theorem idle_after (hS : Memory.Masks P D S) {inst : Inst α} (idle : inst.Idle U D)
    (hw : inst.Each P shape) (ha : AgreeOn S U f m g n) :
    After (fun f' m' => AgreeOn S U f' m' g n) (inst.exec call name count f) m := by
  intro f' m' h
  cases inst with
  | load dst src k =>
    obtain ⟨-, rfl, rfl⟩ := exec_load_iff.mp h
    exact ha.set_left idle _
  | store dst x k =>
    obtain ⟨xs, -, -, -, rfl, rfl⟩ := exec_store_iff.mp h
    exact ⟨ha.1, hS.writeFrom_left ha.2 hw idle _ _⟩
  | binary dst op x y =>
    obtain ⟨xs, ys, zs, -, -, -, rfl, rfl⟩ := exec_binary_iff.mp h
    exact ha.set_left idle _
  | call _ => exact idle.elim
  | loop _ _ _ _ => exact idle.elim

end Inst

/-- Thinned code does what it was thinned from did, as far as is read. -/
theorem Thins.follows (hS : Memory.Masks P D S) (hcall : CallsFollow S call call')
    {old new : Block α} (h : Thins U D old new) :
    ∀ {shape : Option Check.Shape} {count : Nat} {f g : Frame α} {m n : Memory α},
      Block.Each P shape old → AgreeOn S U f m g n →
      Follows (AgreeOn S U) (Block.exec call name count old f) m
        (Block.exec call' name' count new g) n := by
  induction h with
  | nil => exact fun _ ha => Follows.pure ha
  | keep flat uses reads _ ih =>
    intro shape count f g m n hw ha
    simp only [Block.exec]
    exact (Inst.keep_follows hS hcall flat uses reads hw.1 ha).bind fun _ _ _ _ ha' => ih hw.2 ha'
  | loop _ _ ihb ihr =>
    intro shape count f g m n hw ha
    simp only [Block.exec, Inst.exec_loop]
    exact (Follows.iterate _ 0 ha fun i _ f m g n ha => ihb hw.1.2 ha).bind fun _ _ _ _ ha' =>
      ihr hw.2 ha'
  | drop idle _ ih =>
    intro shape count f g m n hw ha
    simp only [Block.exec]
    exact Follows.bind_left (Inst.idle_after hS idle hw.1 ha) fun _ _ ha' => ih hw.2 ha'
  | @dropEmpty trips step parallel body rest rest' _ _ ihb ihr =>
    intro shape count f g m n hw ha
    -- each round ends where the empty body ends, which is where it began
    have hround : ∀ (i : Nat) (f : Frame α) (m : Memory α), AgreeOn S U f m g n →
        After (fun f' m' => AgreeOn S U f' m' g n) (Block.exec call name i body f) m := by
      intro i f m ha f' m' h
      obtain ⟨g', n', hend, ha'⟩ := ihb hw.1.2 ha f' m' h
      obtain ⟨rfl, rfl⟩ := pure_eq_ok_iff.mp hend
      exact ha'
    simp only [Block.exec, Inst.exec_loop]
    exact Follows.bind_left (After.iterate _ 0 ha fun i _ f m ha => hround _ f m ha) fun _ _ ha' =>
      ihr hw.2 ha'
  | @dropIdle step parallel body rest rest' _ ih =>
    intro shape count f g m n hw ha
    have hzero : iterations 0 (max step 1) = 0 := by
      have hlt : 0 + max step 1 - 1 < max step 1 := by omega
      rw [iterations, if_neg (by omega), Nat.div_eq_of_lt hlt]
    simp only [Block.exec, Inst.exec_loop, hzero, Exec.iterate, pure_bind]
    exact ih hw.2 ha

theorem Thins.imitates (hS : Memory.Masks P D S) {r : Routine α} {body : Block α}
    (h : Thins U D r.body body) (hw : Block.Each P none r.body) : r.Imitates S { r with body } :=
  ⟨rfl, fun _ _ hcall _ _ hmn => (h.follows hS hcall hw ⟨fun _ _ => rfl, hmn⟩).imp fun _ _ _ _ h =>
    h.2⟩

end Runs

namespace Routine

variable [Scalar α] {context : Context α} {S : Set α} {U : Set Reg} {D : Set Nat} {r : Routine α}
  {body : Block α}

theorem Tame.thin (h : r.Tame context S) (ht : Thins U D r.body body) :
    Routine.Tame context S { r with body } := by
  obtain ⟨info, hi⟩ := h.tame
  exact ⟨⟨info, ht.tame hi⟩, ht.scope h.reads (by simp), ht.targets_sublist.nodup h.nodup⟩

theorem Tame.writes (h : r.Tame context S) :
    Block.Each (Inst.Writes context.segments) none r.body := by
  obtain ⟨info, hi⟩ := h.tame
  exact Block.each_iff.mpr fun inst hm => (hi inst hm).writes

theorem Tame.imitates_thin (h : r.Tame context S) (ht : Thins U D r.body body) :
    r.Imitates (Memory.SameOff context.segments D) { r with body } :=
  ht.imitates (Memory.masks_sameOff _ _) h.writes

theorem Tame.imitates_self (h : r.Tame context S) :
    r.Imitates (Memory.Same context.segments) r := by
  rw [← Memory.sameOff_empty]
  exact h.imitates_thin (Block.thins_refl (fun _ hr => Set.mem_univ _) (by simp))

end Routine
end StreamStats
