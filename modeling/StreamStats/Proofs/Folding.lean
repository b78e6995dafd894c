import StreamStats.Proofs.Imitation
import StreamStats.Proofs.Lawful

/-! Folding constants changes nothing. A register that is no longer set is known to stand for an
operand that still has its value; what is known is looked up only for registers in scope, and
registers still to be set are not known. -/

namespace StreamStats

open Exec Check

variable {α : Type} [Scalar α] {context : Context α} {S : Set α} {info : Reg → Info α}
  {shape : Option Shape} {k : Known α} {V W : Set Reg} {ahead : List Reg}

omit [Scalar α] in
theorem constantAt?_eq_some {segments : Array (Segment α)} {a : Address} {v : α}
    (h : constantAt? segments a = some v) : ∃ s, segments[a.segment]? = some s ∧ a.stride = 0 ∧
      s.role = .constant ∧ 0 ≤ a.offset ∧ s.contents[a.offset.toNat]? = some v := by
  unfold constantAt? at h
  split at h
  · rename_i s hs
    split at h
    · rename_i hc
      exact ⟨s, hs, hc.1, hc.2.1, hc.2.2, h⟩
    · cases h
  · cases h

theorem valueAt_of_constantAt? {segments : Array (Segment α)} {a : Address} {v : α}
    (h : constantAt? segments a = some v) {m : Memory α} (hm : m.Fits segments) {n count : Nat}
    {writes : Bool} (ha : Reaches segments shape a n writes) (hc : AtCount shape count) :
    m.valueAt a count 0 = v := by
  obtain ⟨s, hs, hstride, hrole, h0, hv⟩ := constantAt?_eq_some h
  obtain ⟨s', hs', -, hin⟩ := ha.segment
  have hi : a.index count 0 = a.offset := by
    rw [hin.index_eq (hc.lt_span (Nat.pos_of_ne_zero ha.lanes_ne_zero)),
      Address.position_of_stride_zero hstride]
  simp only [Memory.valueAt, Memory.value, hi, hm.constant _ s hs hrole, Option.bind_some, hv,
    Option.getD_some]

namespace Arith

theorem value?_of_simplify [LawfulScalar α] {op : Arith} {x y z : Operand α}
    (h : op.simplify x y = some z) {g : Frame α} {xs ys zs : List α}
    (hx : Frame.value? g x = some xs) (hy : Frame.value? g y = some ys)
    (hz : op.lanes xs ys = .ok zs) : Frame.value? g z = some zs := by
  have hmap : ∀ {f : α → α} {ws : List α}, (∀ w, f w = w) → ws.map f = ws := fun hf => by
    rw [List.map_congr_left fun w _ => hf w, List.map_id']
  have hright : ∀ {w : α}, y = .imm w → (∀ v, op.apply v w = v) → zs = xs := by
    rintro w rfl hw
    cases hy
    rw [lanes_single_right] at hz
    cases hz
    exact hmap hw
  have hleft : ∀ {w : α}, x = .imm w → (∀ v, op.apply w v = v) → zs = ys := by
    rintro w rfl hw
    cases hx
    rw [lanes_single_left] at hz
    cases hz
    exact hmap hw
  unfold simplify at h
  split at h
  · cases h
    cases hx
    cases hy
    cases hz
    rfl
  · split at h
    · cases h
      rw [hright rfl fun v => LawfulScalar.add_negZero v _ ‹_›, hx]
    · cases h
  · split at h
    · cases h
      rw [hleft rfl fun v => LawfulScalar.negZero_add v _ ‹_›, hy]
    · cases h
  · split at h
    · cases h
      rw [hright rfl fun v => LawfulScalar.sub_posZero v _ ‹_›, hx]
    · cases h
  · split at h
    · cases h
      rw [hright rfl fun v => LawfulScalar.mul_one v _ ‹_›, hx]
    · cases h
  · split at h
    · cases h
      rw [hleft rfl fun v => LawfulScalar.one_mul v _ ‹_›, hy]
    · cases h
  · split at h
    · cases h
      rw [hright rfl fun v => LawfulScalar.div_one v _ ‹_›, hx]
    · cases h
  · cases h

/-- What an operation gives back is one of its operands, or what it makes of two numbers. -/
theorem simplify_cases {op : Arith} {x y z : Operand α} (h : op.simplify x y = some z) :
    z = x ∨ z = y ∨ ∃ v w, x = .imm v ∧ y = .imm w ∧ z = .imm (op.apply v w) := by
  unfold simplify at h
  split at h
  · cases h
    exact Or.inr (Or.inr ⟨_, _, rfl, rfl, rfl⟩)
  all_goals
    first
    | cases h
    | split at h
      · cases h
        simp
      · cases h

end Arith

namespace Known

omit [Scalar α]

/-- What is known fits the registers in scope: each stands for something that can still be read, of
no more lanes and numbers than its own. Registers still to be set are neither known nor readable. -/
structure Fits (k : Known α) (info : Reg → Info α) (V W : Set Reg) (ahead : List Reg) : Prop where
  resolve : ∀ r ∈ V, (k.resolve (.reg r)).Reads W ∧
    ((k.resolve (.reg r)).lanes info = 1 ∨ (k.resolve (.reg r)).lanes info = (info r).lanes) ∧
    (k.resolve (.reg r)).numbers info ⊆ (info r).numbers
  fresh : ∀ r ∈ ahead, k.get? r = none ∧ r ∉ W

@[simp] theorem resolve_of_none {r : Reg} (h : k.get? r = none) : k.resolve (.reg r) = .reg r := by
  simp [resolve, h]

@[simp] theorem resolve_set_self (r : Reg) (x : Operand α) : resolve (k.set r x) (.reg r) = x := by
  simp [resolve]

@[simp] theorem resolve_set_of_ne {r r' : Reg} (h : r' ≠ r) (x : Operand α) :
    resolve (k.set r x) (.reg r') = k.resolve (.reg r') := by
  simp [resolve, h]

theorem Fits.not_mem_ahead (h : k.Fits info V W ahead) {r : Reg} (hr : r ∈ V) : r ∉ ahead := by
  intro ha
  obtain ⟨hn, hW⟩ := h.fresh r ha
  have := (h.resolve r hr).1
  rw [resolve_of_none hn] at this
  exact hW this

theorem Fits.operand (h : k.Fits info V W ahead) {x : Operand α} (hx : x.Reads V) :
    (k.resolve x).Reads W ∧
      ((k.resolve x).lanes info = 1 ∨ (k.resolve x).lanes info = x.lanes info) ∧
      (k.resolve x).numbers info ⊆ x.numbers info := by
  cases x with
  | reg r => exact h.resolve r hx
  | imm v => exact ⟨trivial, Or.inl rfl, fun _ h => h⟩

theorem Fits.resolve_behind {k' : Known α} {inside : List Reg}
    (hk : k.Fits info V W (inside ++ ahead)) (hs : ∀ r ∉ inside, k'.get? r = k.get? r) {r : Reg}
    (hr : r ∈ V) :
    k'.resolve (.reg r) = k.resolve (.reg r) := by
  have hr : r ∉ inside := fun hi => hk.not_mem_ahead hr (List.mem_append_left _ hi)
  simp [Known.resolve, hs r hr]

/-- The values of registers are related to those of what they are known to stand for. -/
def Relates (R : Option (List α) → Option (List α) → Prop) (k : Known α) (V : Set Reg)
    (f g : Frame α) : Prop := ∀ r ∈ V, R (f.get? r) (Frame.value? g (k.resolve (.reg r)))

/-- Registers have the values of what they are known to stand for. -/
def Reflects (k : Known α) (V : Set Reg) (f g : Frame α) : Prop :=
  ∀ r ∈ V, f.get? r = Frame.value? g (k.resolve (.reg r))

theorem Reflects.operand {f g : Frame α} (h : k.Reflects V f g) {x : Operand α} (hx : x.Reads V) :
    Frame.value? g (k.resolve x) = Frame.value? f x := by
  cases x with
  | reg r => exact (h r hx).symm
  | imm v => rfl

theorem Reflects.congr {f g f' g' : Frame α} (hk : k.Fits info V W ahead) (h : k.Reflects V f g)
    (hf : ∀ r ∈ V, f'.get? r = f.get? r) (hg : ∀ r ∈ W, g'.get? r = g.get? r) :
    k.Reflects V f' g' := by
  intro r hr
  rw [hf r hr, h r hr]
  have hreads := (hk.resolve r hr).1
  cases hx : k.resolve (.reg r) with
  | imm v => rfl
  | reg r' =>
    rw [hx] at hreads
    exact (hg r' hreads).symm

theorem Fits.define (h : k.Fits info V W (r :: ahead)) (hr : r ∉ ahead) :
    k.Fits info {r' | r' ∈ V ∨ some r = some r'} {r' | r' ∈ W ∨ some r = some r'} ahead := by
  constructor
  · rintro r' (hr' | hr')
    · obtain ⟨hW, hrest⟩ := h.resolve r' hr'
      exact ⟨hW.mono fun _ => Or.inl, hrest⟩
    · cases hr'
      rw [resolve_of_none (h.fresh r List.mem_cons_self).1]
      exact ⟨Or.inr rfl, Or.inr rfl, fun _ h => h⟩
  · intro r' hr'
    refine ⟨(h.fresh r' (List.mem_cons_of_mem _ hr')).1, ?_⟩
    rintro (hW | hW)
    · exact (h.fresh r' (List.mem_cons_of_mem _ hr')).2 hW
    · cases hW
      exact hr hr'

/-- A register is no longer set; what it stands for is known instead. -/
theorem Fits.learn (h : k.Fits info V W (r :: ahead)) (hr : r ∉ ahead) {x : Operand α}
    (hx : x.Reads W) (hl : x.lanes info = 1 ∨ x.lanes info = (info r).lanes)
    (hn : x.numbers info ⊆ (info r).numbers) :
    Known.Fits (k.set r x) info {r' | r' ∈ V ∨ some r = some r'} W ahead := by
  constructor
  · rintro r' (hr' | hr')
    · have hne : r' ≠ r := fun he => h.not_mem_ahead hr' (he ▸ List.mem_cons_self)
      rw [resolve_set_of_ne hne]
      exact h.resolve r' hr'
    · cases hr'
      rw [resolve_set_self]
      exact ⟨hx, hl, hn⟩
  · intro r' hr'
    have hne : r' ≠ r := by
      rintro rfl
      exact hr hr'
    rw [RegMap.get?_set, if_neg hne]
    exact h.fresh r' (List.mem_cons_of_mem _ hr')

section Relates

variable {R : Option (List α) → Option (List α) → Prop} {f g : Frame α} {xs ys : List α}

theorem Relates.define (hk : k.Fits info V W (r :: ahead)) (h : k.Relates R V f g)
    (hxy : R (some xs) (some ys)) :
    k.Relates R {r' | r' ∈ V ∨ some r = some r'} (f.set r xs) (g.set r ys) := by
  rintro r' (hr' | hr')
  · have hne : r' ≠ r := fun he => hk.not_mem_ahead hr' (he ▸ List.mem_cons_self)
    have hvalue : Frame.value? (g.set r ys) (k.resolve (.reg r')) =
        Frame.value? g (k.resolve (.reg r')) := by
      refine Frame.value?_congr fun r'' hr'' => ?_
      have hW : r'' ∈ W := by
        have := (hk.resolve r' hr').1
        cases hx : k.resolve (.reg r') with
        | imm v =>
          rw [hx] at hr''
          cases hr''
        | reg r₁ =>
          rw [hx] at hr'' this
          cases hr''
          exact this
      have hne : r'' ≠ r := fun he => (hk.fresh r List.mem_cons_self).2 (he ▸ hW)
      rw [RegMap.get?_set, if_neg hne]
    rw [RegMap.get?_set, if_neg hne, hvalue]
    exact h r' hr'
  · cases hr'
    rw [resolve_of_none (hk.fresh r List.mem_cons_self).1, RegMap.get?_set, if_pos rfl]
    simpa [Frame.value?] using hxy

theorem Relates.learn (hk : k.Fits info V W (r :: ahead)) (h : k.Relates R V f g) {x : Operand α}
    (hx : R (some xs) (Frame.value? g x)) :
    Known.Relates R (k.set r x) {r' | r' ∈ V ∨ some r = some r'} (f.set r xs) g := by
  rintro r' (hr' | hr')
  · have hne : r' ≠ r := fun he => hk.not_mem_ahead hr' (he ▸ List.mem_cons_self)
    rw [RegMap.get?_set, if_neg hne, resolve_set_of_ne hne]
    exact h r' hr'
  · cases hr'
    rwa [resolve_set_self, RegMap.get?_set, if_pos rfl]

theorem Reflects.define (hk : k.Fits info V W (r :: ahead)) (h : k.Reflects V f g) (xs : List α) :
    k.Reflects {r' | r' ∈ V ∨ some r = some r'} (f.set r xs) (g.set r xs) :=
  Relates.define (R := Eq) hk h rfl

theorem Reflects.learn (hk : k.Fits info V W (r :: ahead)) (h : k.Reflects V f g) {x : Operand α}
    (hx : Frame.value? g x = some xs) :
    Known.Reflects (k.set r x) {r' | r' ∈ V ∨ some r = some r'} (f.set r xs) g :=
  Relates.learn (R := Eq) hk h hx.symm

end Relates

end Known

/-- Code and what it is folded to. `P` is what both ask of their instructions. -/
structure FoldsTo (segments : Array (Segment α)) (P : Inst α → Prop) (info : Reg → Info α)
    (counts : Nat → Prop) (V W : Set Reg) (ahead : List Reg) (k : Known α) (old : Block α)
    (new : Block α × Known α) : Prop where
  each : ∀ inst ∈ new.1, P inst
  reads : Block.Scoped true W new.1
  targets : (Block.targets new.1).Sublist (Block.targets old)
  fits : new.2.Fits info (Block.define old V) (Block.define new.1 W) ahead
  unchanged : ∀ r ∉ Block.targets old, new.2.get? r = k.get? r
  follows : ∀ {call call' : String → Exec α Unit}, CallsFollow (Memory.Same segments) call call' →
    ∀ (name : String) {count : Nat}, counts count → ∀ {f g : Frame α} {m : Memory α},
    k.Reflects V f g → m.Fits segments →
      Follows (fun f' m' g' n' => new.2.Reflects (Block.define old V) f' g' ∧
        Memory.Same segments m' n') (Block.exec call name count old f) m
          (Block.exec call' name count new.1 g) m

namespace FoldsTo

variable {segments : Array (Segment α)} {P : Inst α → Prop} {counts : Nat → Prop}

theorem nil (hk : k.Fits info V W ahead) : FoldsTo segments P info counts V W ahead k [] ([], k) :=
  ⟨by simp, trivial, .slnil, hk, fun _ _ => rfl,
    fun _ _ _ _ _ _ _ hf hm => Follows.pure ⟨hf, rfl, hm⟩⟩

theorem append {old old' : Block α} {new new' : Block α × Known α}
    (h : FoldsTo segments P info counts V W (Block.targets old' ++ ahead) k old new)
    (h' : FoldsTo segments P info counts (Block.define old V) (Block.define new.1 W) ahead new.2
      old' new') :
    FoldsTo segments P info counts V W ahead k (old ++ old') (new.1 ++ new'.1, new'.2) := by
  refine ⟨?_, ?_, ?_, ?_, ?_, ?_⟩
  · intro inst hi
    exact (List.mem_append.mp hi).elim (h.each inst) (h'.each inst)
  · exact Block.scoped_append.mpr ⟨h.reads, h'.reads⟩
  · simp only [Block.targets_append]
    exact h.targets.append h'.targets
  · simpa only [Block.define_append] using h'.fits
  · intro r hr
    rw [Block.targets_append, List.mem_append, not_or] at hr
    rw [h'.unchanged r hr.2, h.unchanged r hr.1]
  · intro call call' hcall name count hc f g m hf hm
    rw [Block.exec_append, Block.exec_append, Block.define_append]
    refine (h.follows hcall name hc hf hm).bind fun f' m' g' n' hfg => ?_
    obtain ⟨hf', rfl, hm'⟩ := hfg
    exact h'.follows hcall name hc hf' hm'

end FoldsTo

theorem FoldsTo.keep {P : Inst α → Prop} {counts : Nat → Prop} {segments : Array (Segment α)}
    (hk : k.Fits info V W ahead) {old new : Inst α} (hp : P new) (hr : new.Scoped true W)
    (hold : old.targets = []) (hnew : new.targets = [])
    (hf : ∀ {call call' : String → Exec α Unit}, CallsFollow (Memory.Same segments) call call' →
      ∀ (name : String) {count : Nat}, counts count → ∀ {f g : Frame α} {m : Memory α},
      k.Reflects V f g →
        m.Fits segments → Follows (fun f' m' g' n' => f' = f ∧ g' = g ∧ Memory.Same segments m' n')
          (old.exec call name count f) m (new.exec call' name count g) m) :
    FoldsTo segments P info counts V W ahead k [old] ([new], k) := by
  have hd : ∀ {inst : Inst α} (V : Set Reg), inst.targets = [] → Block.define [inst] V = V := by
    intro inst V hi
    have : inst.target? = none := by
      cases ht : inst.target? with
      | none => rfl
      | some r => simpa [hi] using Inst.mem_targets_of_target? ht
    simp [Inst.define, this]
  refine ⟨by simpa using hp, ⟨hr, trivial⟩, by simp [Block.targets, hold, hnew], ?_,
    fun _ _ => rfl, ?_⟩
  · rwa [hd V hold, hd W hnew]
  · intro call call' hcall name count hc f g m hfg hm
    rw [Block.exec_singleton, Block.exec_singleton, hd V hold]
    refine (hf hcall name hc hfg hm).imp ?_
    rintro f' m' g' n' ⟨rfl, rfl, hs⟩
    exact ⟨hfg, hs⟩

theorem FoldsTo.learn {P : Inst α → Prop} {counts : Nat → Prop} {segments : Array (Segment α)}
    {inst : Inst α} {dst : Reg} {x : Operand α} (hk : k.Fits info V W (dst :: ahead))
    (hdst : inst.target? = some dst) (hr : dst ∉ ahead) (hx : x.Reads W)
    (hl : x.lanes info = 1 ∨ x.lanes info = (info dst).lanes)
    (hn : x.numbers info ⊆ (info dst).numbers) (hf : ∀ (call : String → Exec α Unit) (name : String)
      {count : Nat}, counts count → ∀ {f g f' : Frame α} {m m' : Memory α}, k.Reflects V f g →
      m.Fits segments →
        inst.exec call name count f m = .ok f' m' → m' = m ∧ ∃ xs, f' = f.set dst xs ∧
        Frame.value? g x = some xs) :
    FoldsTo segments P info counts V W ahead k [inst] ([], k.set dst x) := by
  have htargets : Block.targets [inst] = [dst] := by
    simp [Block.targets, Inst.targets_of_target? hdst]
  have hdefine : Block.define [inst] V = {r | r ∈ V ∨ some dst = some r} := by
    simp [Inst.define, hdst]
  refine ⟨by simp, trivial, by simp [Block.targets], ?_, fun r hr' => ?_, ?_⟩
  · rw [hdefine]
    exact hk.learn hr hx hl hn
  · rw [RegMap.get?_set, if_neg (by simpa [htargets] using hr')]
  · intro call call' hcall name count hc f g m hfg hm
    rw [Block.exec_singleton, hdefine]
    intro f' m' h
    obtain ⟨rfl, xs, rfl, hvalue⟩ := hf call name hc hfg hm h
    exact ⟨g, m', rfl, hfg.learn hk hvalue, rfl, hm⟩

namespace Inst

variable {entered : Operand α → Operand α}

theorem foldsTo_load {dst : Reg} {src : Address} {n : Nat}
    (hp : Plain context S info shape (.load dst src n)) (hr : dst ∉ ahead)
    (hk : k.Fits info V W (dst :: ahead)) :
    FoldsTo context.segments (Plain context S info shape) info
      (AtCount shape) V W ahead k [.load dst src n] (fold context.segments entered
        (.load dst src n) k) := by
  simp only [fold]
  cases hv : constantAt? context.segments src with
  | none =>
    refine ⟨by simpa using hp, ⟨trivial, trivial⟩, .refl _, hk.define hr, fun _ _ => rfl, ?_⟩
    intro call call' hcall name count hc f g m hf hm
    rw [Block.exec_singleton, Block.exec_singleton]
    intro f' m' h
    obtain ⟨hm', rfl, rfl⟩ := exec_load_iff.mp h
    exact ⟨_, _, exec_load_iff.mpr ⟨hm', rfl, rfl⟩, hf.define hk _, rfl, hm⟩
  | some v =>
    refine .learn hk rfl hr trivial (Or.inl rfl) (by simpa [Operand.numbers] using hp.2.2.2 v hv) ?_
    intro call name count hc f g f' m m' hf hm h
    obtain ⟨-, rfl, rfl⟩ := exec_load_iff.mp h
    obtain ⟨s, -, hstride, -⟩ := constantAt?_eq_some hv
    have hval : (List.range n).map (m'.valueAt src count) = [v] := by
      rw [hp.2.2.1 hstride]
      simp [valueAt_of_constantAt? hv hm hp.1 hc]
    exact ⟨rfl, [v], by rw [hval], rfl⟩

theorem foldsTo_binary [LawfulScalar α] {dst : Reg} {op : Arith} {x y : Operand α}
    (hp : Plain context S info shape (.binary dst op x y)) (hs : Scoped true V (.binary dst op x y))
    (hr : dst ∉ ahead) (he : ∀ x : Operand α, x.Reads V → entered x = x)
    (hk : k.Fits info V W (dst :: ahead)) :
    FoldsTo context.segments (Plain context S info shape) info (AtCount shape) V W ahead k
      [.binary dst op x y] (fold context.segments entered (.binary dst op x y) k) := by
  obtain ⟨⟨hw, hmax⟩, ⟨hxS, hyS⟩, ⟨hxd, hyd⟩, hop⟩ := hp
  obtain ⟨hxr, hxl, hxn⟩ := hk.operand hs.1
  obtain ⟨hyr, hyl, hyn⟩ := hk.operand hs.2
  have hx0 := Operand.lanes_ne_zero info x
  have hy0 := Operand.lanes_ne_zero info y
  simp only [fold, he x hs.1, he y hs.2]
  cases hz : op.simplify (k.resolve x) (k.resolve y) with
  | none =>
    refine ⟨?_, ⟨⟨hxr, hyr⟩, trivial⟩, .refl _, hk.define hr, fun _ _ => rfl, ?_⟩
    · simp only [List.mem_singleton, forall_eq]
      refine ⟨⟨by omega, by omega⟩, ⟨hxn.trans hxS, hyn.trans hyS⟩, ⟨hxn.trans hxd, hyn.trans hyd⟩,
        ?_⟩
      exact fun v hv w hw => hop v (hxn hv) w (hyn hw)
    · intro call call' hcall name count hc f g m hf hm
      rw [Block.exec_singleton, Block.exec_singleton]
      intro f' m' h
      obtain ⟨xs, ys, zs, hx, hy, hz, rfl, rfl⟩ := exec_binary_iff.mp h
      exact ⟨_, _, exec_binary_iff.mpr ⟨xs, ys, zs, (hf.operand hs.1).trans hx,
        (hf.operand hs.2).trans hy, hz, rfl, rfl⟩, hf.define hk _, rfl, hm⟩
  | some z =>
    have hzr : z.Reads W ∧ (z.lanes info = 1 ∨ z.lanes info = (info dst).lanes) ∧
        z.numbers info ⊆ (info dst).numbers := by
      rcases Arith.simplify_cases hz with rfl | rfl | ⟨v, w, hv, hw', rfl⟩
      · exact ⟨hxr, by omega, hxn.trans hxd⟩
      · exact ⟨hyr, by omega, hyn.trans hyd⟩
      · refine ⟨trivial, Or.inl rfl, ?_⟩
        rw [hv] at hxn
        rw [hw'] at hyn
        simpa [Operand.numbers] using hop v (hxn rfl) w (hyn rfl)
    refine .learn hk rfl hr hzr.1 hzr.2.1 hzr.2.2 ?_
    intro call name count hc f g f' m m' hf hm h
    obtain ⟨xs, ys, zs, hx, hy, hzs, rfl, rfl⟩ := exec_binary_iff.mp h
    exact ⟨rfl, zs, rfl,
      Arith.value?_of_simplify hz ((hf.operand hs.1).trans hx) ((hf.operand hs.2).trans hy) hzs⟩

theorem foldsTo_of_plain [LawfulScalar α] {inst : Inst α} (hp : inst.Plain context S info shape)
    (hs : inst.Scoped true V) (hd : ∀ r ∈ inst.targets, r ∉ ahead)
    (he : ∀ x : Operand α, x.Reads V → entered x = x)
    (hk : k.Fits info V W (inst.targets ++ ahead)) :
    FoldsTo context.segments (Plain context S info shape) info (AtCount shape) V W ahead k [inst]
      (inst.fold context.segments entered k) := by
  cases inst with
  | load dst src n => exact foldsTo_load hp (hd dst (by simp [targets])) hk
  | binary dst op x y => exact foldsTo_binary hp hs (hd dst (by simp [targets])) he hk
  | store dst x n =>
    obtain ⟨ha, hl, hn⟩ := hp
    obtain ⟨hxr, hxl, hxn⟩ := hk.operand hs
    simp only [fold, he x hs]
    refine FoldsTo.keep hk ⟨ha, by omega, hxn.trans hn⟩ hxr rfl rfl ?_
    intro call call' hcall name count hc f g m hf hm f' m' h
    obtain ⟨xs, hx, hlen, hm', rfl, rfl⟩ := exec_store_iff.mp h
    obtain ⟨s, hseg, hw, -⟩ := ha.segment
    exact ⟨_, _, exec_store_iff.mpr ⟨xs, (hf.operand hs).trans hx, hlen, hm', rfl, rfl⟩, rfl, rfl,
      rfl, hm.keeps (.writeFrom hseg (hw rfl) _ _ _ _)⟩
  | call callee =>
    simp only [fold]
    refine FoldsTo.keep hk hp trivial rfl rfl ?_
    intro call call' hcall name count hc f g m hf hm f' m' h
    obtain ⟨rfl, hcallee⟩ := exec_call_iff.mp h
    obtain ⟨u, n', hn', hS⟩ := hcall callee m m ⟨rfl, hm⟩ _ _ hcallee
    exact ⟨g, n', exec_call_iff.mpr ⟨rfl, hn'⟩, rfl, rfl, hS⟩
  | loop _ _ _ _ => exact hp.elim

end Inst

omit [Scalar α] in
theorem Block.not_mem_ahead {inst : Inst α} {rest : Block α}
    (hd : (Block.targets (inst :: rest)).Nodup)
    (ha : ∀ r ∈ Block.targets (inst :: rest), r ∉ ahead) :
    ∀ r ∈ inst.targets, r ∉ Block.targets rest ++ ahead := by
  intro r hr hr'
  rcases List.mem_append.mp hr' with hr' | hr'
  · exact (List.nodup_append.mp hd).2.2 r hr r hr' rfl
  · exact ha r (List.mem_append_left _ hr) hr'

/-- Folding flat code. -/
theorem Block.foldsTo_of_plain [LawfulScalar α] {entered : Operand α → Operand α}
    {body : List (Inst α)} :
    ∀ {V W : Set Reg} {k : Known α}, (∀ inst ∈ body, inst.Plain context S info shape) →
      Block.Scoped true V body → (Block.targets body).Nodup →
      (∀ r ∈ Block.targets body, r ∉ ahead) → (∀ x : Operand α, x.Reads (Block.define body V) →
        entered x = x) → k.Fits info V W (Block.targets body ++ ahead) →
      FoldsTo context.segments (Inst.Plain context S info shape) info
        (AtCount shape) V W ahead k body (Block.fold context.segments entered body k) := by
  induction body with
  | nil =>
    intro V W k _ _ _ _ _ hk
    exact FoldsTo.nil hk
  | cons inst rest ih =>
    intro V W k hp hs hd ha he hk
    obtain ⟨-, hdr, -⟩ := List.nodup_append.mp hd
    have hi : FoldsTo context.segments (Inst.Plain context S info shape) info (AtCount shape) V W
        (Block.targets rest ++ ahead) k [inst] (inst.fold context.segments entered k) :=
      Inst.foldsTo_of_plain (hp inst List.mem_cons_self) hs.1 (Block.not_mem_ahead hd ha)
      (fun x hx => he x (hx.mono ((Inst.subset_define inst V).trans (Block.subset_define rest _))))
      (by simpa [Block.targets] using hk)
    exact hi.append (ih (fun i hi => hp i (List.mem_cons_of_mem _ hi)) hs.2 hdr
      (fun r hr => ha r (List.mem_append_right _ hr)) he hi.fits)

theorem FoldsTo.imp {P Q : Inst α → Prop} {counts : Nat → Prop} {segments : Array (Segment α)}
    {old : Block α} {new : Block α × Known α}
    (h : FoldsTo segments P info counts V W ahead k old new) (hpq : ∀ inst, P inst → Q inst) :
    FoldsTo segments Q info counts V W ahead k old new :=
  ⟨fun inst hi => hpq inst (h.each inst hi), h.reads, h.targets, h.fits, h.unchanged, h.follows⟩

/-- Rounds of a body that is folded on its own do alike, and what the body does not set stays as it
was. -/
theorem FoldsTo.iterate {segments : Array (Segment α)} {P : Inst α → Prop} {n step : Nat}
    {body : Block α} {new : Block α × Known α}
    (hb : FoldsTo segments P info (AtCount (some ⟨n, step⟩)) ∅ ∅ ahead k body new)
    {call call' : String → Exec α Unit} (hcall : CallsFollow (Memory.Same segments) call call')
    (name : String) (f g : Frame α) {m : Memory α} (hm : m.Fits segments) :
    Follows (fun f' m' g' n' => ((∀ r ∉ Block.targets body, f'.get? r = f.get? r) ∧
        ∀ r ∉ Block.targets body, g'.get? r = g.get? r) ∧ Memory.Same segments m' n')
      (Exec.iterate (fun count f => Block.exec call name count body f) step n 0 f) m
      (Exec.iterate (fun count f => Block.exec call' name count new.1 f) step n 0 g) m := by
  refine Follows.iterate _ 0 ⟨⟨fun _ _ => rfl, fun _ _ => rfl⟩, rfl, hm⟩ ?_
  rintro i hi f₁ m₁ g₁ n₁ ⟨⟨hf₁, hg₁⟩, rfl, hm₁⟩
  have hcount : AtCount (some ⟨n, step⟩) (0 + i * step) := ⟨i, hi, by simp⟩
  have hfollows := hb.follows hcall name hcount (f := f₁) (g := g₁)
    (fun r hr => absurd hr (by simp)) hm₁
  intro f₂ m₂ h
  obtain ⟨g₂, n₂, h', -, hsame⟩ := hfollows f₂ m₂ h
  have hold := Block.exec_frame f₂ m₂ h
  have hnew := Block.exec_frame g₂ n₂ h'
  refine ⟨g₂, n₂, h', ⟨fun r hr => (hold r hr).trans (hf₁ r hr), fun r hr => ?_⟩, hsame⟩
  exact (hnew r fun ht => hr (hb.targets.subset ht)).trans (hg₁ r hr)

/-- A loop is folded as its body is. What is known of its body's registers is not looked up behind
it. -/
theorem Inst.foldsTo_loop [LawfulScalar α] {trips step : Nat} {parallel : Bool} {body : Block α}
    (ht : Inst.Tame context S info (.loop trips step parallel body))
    (hs : Inst.Scoped true V (.loop trips step parallel body)) (hd : (Block.targets body).Nodup)
    (ha : ∀ r ∈ Block.targets body, r ∉ ahead)
    (hk : k.Fits info V W (Block.targets body ++ ahead)) :
    FoldsTo context.segments (Inst.Tame context S info) info (· = 0) V W ahead k
      [.loop trips step parallel body] (Inst.fold context.segments id
        (.loop trips step parallel body) k) := by
  obtain ⟨hstep, inner, hplain⟩ := ht
  have hfresh : ∀ r ∈ Block.targets body, k.get? r = none := fun r hr =>
    (hk.fresh r (List.mem_append_left _ hr)).1
  have hb : FoldsTo context.segments (Inst.Plain context S inner
    (some ⟨iterations trips step, step⟩)) inner
      (AtCount (some ⟨iterations trips step, step⟩)) ∅ ∅ ahead k body
      (Block.fold context.segments (fun x => k.resolve (id x)) body k) := by
    refine Block.foldsTo_of_plain hplain hs hd ha ?_
      ⟨by simp, fun r hr => ⟨(hk.fresh r hr).1, by simp⟩⟩
    intro x hx
    cases x with
    | imm v => rfl
    | reg r =>
      obtain ⟨inst, hi, hr⟩ := (Block.mem_define.mp hx).resolve_left (by simp)
      exact Known.resolve_of_none
        (hfresh r (Block.mem_targets.mpr ⟨inst, hi, Inst.mem_targets_of_target? hr⟩))
  simp only [Inst.fold]
  generalize Block.fold context.segments (fun x => k.resolve (id x)) body k = new at hb
  have hdefine : ∀ body : Block α, Block.define [Inst.loop trips step parallel body] V = V ∧
      Block.define [Inst.loop trips step parallel body] W = W := by
    intro body
    simp [Inst.define, Inst.target?]
  have hresolve : ∀ r ∈ V, new.2.resolve (.reg r) = k.resolve (.reg r) :=
    fun _ => hk.resolve_behind hb.unchanged
  refine ⟨?_, ⟨hb.reads, trivial⟩,
    by simpa [Block.targets, Inst.targets] using hb.targets, ?_, ?_, ?_⟩
  · simp only [List.mem_singleton, forall_eq]
    exact ⟨hstep, inner, hb.each⟩
  · rw [(hdefine body).1, (hdefine new.1).2]
    refine ⟨fun r hr => ?_, fun r hr =>
      ⟨(hb.fits.fresh r hr).1, (hk.fresh r (List.mem_append_right _ hr)).2⟩⟩
    rw [hresolve r hr]
    exact hk.resolve r hr
  · intro r hr
    exact hb.unchanged r (by simpa [Block.targets, Inst.targets] using hr)
  · intro call call' hcall name count _ f g m hf hm
    rw [Block.exec_singleton, Block.exec_singleton, Inst.exec_loop_of_ne_zero hstep,
      Inst.exec_loop_of_ne_zero hstep, (hdefine body).1]
    refine (hb.iterate hcall name f g hm).imp ?_
    rintro f' m' g' n' ⟨⟨hf', hg'⟩, hsame⟩
    have hreflects : k.Reflects V f' g' := hf.congr hk
      (fun r hr => hf' r fun hin => hk.not_mem_ahead hr (List.mem_append_left _ hin))
      (fun r hr => hg' r fun hin => (hk.fresh r (List.mem_append_left _ hin)).2 hr)
    exact ⟨fun r hr => by rw [hreflects r hr, hresolve r hr], hsame⟩

theorem Inst.foldsTo_of_tame [LawfulScalar α] {inst : Inst α} (ht : inst.Tame context S info)
    (hs : inst.Scoped true V) (hd : inst.targets.Nodup) (ha : ∀ r ∈ inst.targets, r ∉ ahead)
    (hk : k.Fits info V W (inst.targets ++ ahead)) :
    FoldsTo context.segments (Inst.Tame context S info) info (· = 0) V W ahead k [inst]
      (inst.fold context.segments id k) := by
  have hplain : inst.Plain context S info none →
      FoldsTo context.segments (Inst.Tame context S info) info (· = 0) V W ahead k [inst]
        (inst.fold context.segments id k) := fun hp =>
    (Inst.foldsTo_of_plain hp hs ha (fun _ _ => rfl) hk).imp fun _ => Inst.tame_of_plain
  cases inst with
  | load dst src n => exact hplain ht
  | store dst x n => exact hplain ht
  | binary dst op x y => exact hplain ht
  | call callee => exact hplain ht
  | loop trips step parallel body => exact Inst.foldsTo_loop ht hs hd ha hk

theorem Block.foldsTo_of_tame [LawfulScalar α] {body : List (Inst α)} :
    ∀ {V W : Set Reg} {k : Known α}, (∀ inst ∈ body, inst.Tame context S info) →
      Block.Scoped true V body → (Block.targets body).Nodup →
      k.Fits info V W (Block.targets body) →
      FoldsTo context.segments (Inst.Tame context S info) info (· = 0) V W [] k body
        (Block.fold context.segments id body k) := by
  induction body with
  | nil =>
    intro V W k _ _ _ hk
    exact FoldsTo.nil hk
  | cons inst rest ih =>
    intro V W k ht hs hd hk
    obtain ⟨hdi, hdr, hdis⟩ := List.nodup_append.mp hd
    have hi := Inst.foldsTo_of_tame (ht inst List.mem_cons_self) hs.1 hdi
      (fun r hr hr' => hdis r hr r hr' rfl) hk
    rw [← List.append_nil (Block.targets rest)] at hi
    exact hi.append (ih (fun i hi => ht i (List.mem_cons_of_mem _ hi)) hs.2 hdr
      (by simpa using hi.fits))

namespace Routine

/-- Folding constants keeps routines tame and does not change what they do. -/
theorem foldConstants_tame [LawfulScalar α] {r : Routine α} (h : r.Tame context S) :
    (r.foldConstants context.segments).Tame context S ∧
      r.Imitates (Memory.Same context.segments) (r.foldConstants context.segments) := by
  obtain ⟨info, hi⟩ := h.tame
  have hk : Known.Fits (RegMap.empty : Known α) info ∅ ∅ (Block.targets r.body) :=
    ⟨by simp, by simp⟩
  have hf := Block.foldsTo_of_tame hi h.reads h.nodup hk
  refine ⟨⟨⟨info, hf.each⟩, hf.reads, hf.targets.nodup h.nodup⟩, rfl, ?_⟩
  rintro call call' hcall m n ⟨rfl, hm⟩
  exact (hf.follows hcall r.name rfl (by simp [Known.Reflects]) hm).imp fun _ _ _ _ h => h.2

end Routine
end StreamStats
