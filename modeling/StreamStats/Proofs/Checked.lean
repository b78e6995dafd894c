import Mathlib.Data.List.Nodup
import StreamStats.Proofs.Legal
import StreamStats.Proofs.Outcome

/-! What it means that code has been checked. A checked routine sets no register twice, reads only
registers in scope, and each of its instructions is legal for the lanes that the checker counted,
provided that no index runs over a word. Conversely code of that kind passes the checker. -/

namespace StreamStats

variable {α : Type}

namespace Check

@[simp] theorem inside_eq_ok_iff {s : Segment α} {index : Int} :
    inside s index = .ok () ↔ 0 ≤ index ∧ index < s.size := by
  unfold inside
  split <;> simp_all

/-- No index of the access is cut to a word. -/
def IndicesExact (shape : Option Shape) (a : Address) (lanes : Nat) : Prop :=
  ∀ n < span shape lanes, a.index n 0 = a.position n

theorem within_of_exact {a : Address} {size last : Nat}
    (he : ∀ n < last + 1, a.index n 0 = a.position n) (h0 : 0 ≤ a.index 0 0 ∧ a.index 0 0 < size)
    (h1 : 0 ≤ a.index last 0 ∧ a.index last 0 < size) : a.Within size (last + 1) := by
  rw [he 0 (by omega)] at h0
  rw [he last (by omega)] at h1
  intro n hn
  have hb := Address.between_of_ends h0 h1 (Nat.lt_succ_iff.mp hn)
  refine ⟨hb.1, hb.2, ?_⟩
  have hw : wrap (a.position n) < signBound := by
    have := Int.bmod_lt (x := a.position n) (m := wordBound) (by simp [wordBound])
    simp only [wrap, wordBound, signBound] at this ⊢
    omega
  have := he n hn
  rw [Address.index_eq_wrap, Nat.add_zero] at this
  omega

section Access

variable {segments : Array (Segment α)} {shape : Option Shape} {a : Address} {lanes : Nat}
    {writes : Bool}

def EndsInside (s : Segment α) (a : Address) (last : Nat) : Prop :=
  (0 ≤ a.index 0 0 ∧ a.index 0 0 < s.size) ∧ 0 ≤ a.index last 0 ∧ a.index last 0 < s.size

theorem ends_inside_iff {s : Segment α} {count lane last : Nat} (hlast : count + lane = last) :
    (do inside s (a.index 0 0); inside s (a.index count lane)) = .ok () ↔ EndsInside s a last := by
  have hindex : a.index count lane = a.index last 0 := by
    rw [← hlast, Address.index_eq_wrap, Address.index_eq_wrap]; rfl
  rw [hindex, EndsInside, ← inside_eq_ok_iff, ← inside_eq_ok_iff]
  constructor
  · intro h
    obtain ⟨_, h0, h1⟩ := ok_of_bind h
    exact ⟨h0, h1⟩
  · rintro ⟨h0, h1⟩
    rw [h0, h1]
    rfl

/-- All that the checker asks of an access. Of the places that it covers, if any, it looks at the
first and the last. -/
theorem access_eq_ok_iff : access segments shape a lanes writes = .ok () ↔
    ∃ s, segments[a.segment]? = some s ∧ (writes = true → s.role.isWritable = true) ∧ lanes ≠ 0 ∧
      (∀ l, shape = some l → a.stride ≠ 0 → lanes = l.step) ∧
        ∀ last, span shape lanes = last + 1 → EndsInside s a last := by
  unfold access
  cases hs : segments[a.segment]? with
  | none => simp
  | some s =>
    have hw : ¬(writes && !s.role.isWritable) = true ↔ (writes = true → s.role.isWritable = true) :=
      by simp
    simp only [refuse_bind_eq_ok_iff, hw, Option.some.injEq, exists_eq_left']
    refine and_congr_right fun _ => and_congr_right fun hl => ?_
    obtain ⟨n, rfl⟩ := Nat.exists_eq_succ_of_ne_zero hl
    cases shape with
    | none => simp [ends_inside_iff (Nat.zero_add _), span]
    | some l =>
      have hstep : ¬(a.stride ≠ 0 ∧ n + 1 ≠ l.step) ↔ (a.stride ≠ 0 → n + 1 = l.step) := by simp
      simp only [refuse_bind_eq_ok_iff, Option.some.injEq, forall_eq', Nat.succ_eq_add_one, hstep]
      refine and_congr_right fun _ => ?_
      by_cases hit : l.iterations = 0
      · simp [hit, span]
        rfl
      · simp [hit, span, ends_inside_iff rfl, ← Nat.add_assoc]

theorem lanes_ne_zero_of_access (h : access segments shape a lanes writes = .ok ()) :
    lanes ≠ 0 := by
  obtain ⟨-, -, -, hl, -⟩ := access_eq_ok_iff.mp h
  exact hl

theorem reaches_of_access (h : access segments shape a lanes writes = .ok ())
    (he : IndicesExact shape a lanes) :
    Reaches segments shape a lanes writes := by
  obtain ⟨s, hs, hw, hl, hn, hends⟩ := access_eq_ok_iff.mp h
  refine ⟨hl, hn, s, hs, hw, ?_⟩
  unfold IndicesExact at he
  cases hspan : span shape lanes with
  | zero => simp [Address.Within]
  | succ last =>
    rw [hspan] at he
    obtain ⟨h0, h1⟩ := hends last hspan
    exact within_of_exact he h0 h1

theorem Reaches.access_eq_ok (h : Reaches segments shape a lanes writes) :
    access segments shape a lanes writes = .ok () := by
  obtain ⟨s, hs, hw, hin⟩ := h.segment
  refine access_eq_ok_iff.mpr ⟨s, hs, hw, h.lanes_ne_zero, h.lanes_eq_step, fun last hlast => ?_⟩
  have hinside : ∀ count < span shape lanes, 0 ≤ a.index count 0 ∧ a.index count 0 < s.size :=
      fun count hc => by
    obtain ⟨h0, h1, -⟩ := hin count hc
    rw [hin.index_eq (by omega)]
    exact ⟨h0, h1⟩
  exact ⟨hinside 0 (by omega), hinside last (by omega)⟩

end Access

namespace Seen

def inSight (s : Seen) : Set Reg := {r | s.visible.contains r = true}

@[simp] theorem inSight_none : none.inSight = ∅ := by
  ext r
  simp [inSight, none, RegMap.contains]

@[simp] theorem readable_eq_ok_iff {s : Seen} {x : Operand α} :
    s.readable x = .ok () ↔ x.Reads s.inSight := by
  cases x with
  | imm _ => simp [readable, Operand.Reads]
  | reg r =>
    simp only [readable, Operand.Reads, inSight, Set.mem_ofPred_eq]
    split <;> simp_all

theorem define_eq_ok {s s' : Seen} {r : Reg} {n : Nat} (h : s.define r n = .ok s') :
    s.lanes.contains r = false ∧ s' = ⟨s.visible.set r n, s.lanes.set r n⟩ := by
  unfold define at h
  split at h
  · cases h
  · rename_i hr
    cases h
    exact ⟨by simpa using hr, rfl⟩

@[simp] theorem contains_set {m : RegMap Nat} {r r' : Reg} {n : Nat} :
    (m.set r n).contains r' = true ↔ r' = r ∨ m.contains r' = true := by
  simp only [RegMap.contains, RegMap.get?_set]
  by_cases h : r' = r <;> simp [h]

/-- Every register in sight has its lanes counted. -/
def Counted (s : Seen) : Prop := ∀ r, s.visible.contains r = true → s.lanes.contains r = true

theorem Counted.set {s : Seen} (hc : s.Counted) (r : Reg) (n : Nat) :
    Counted ⟨s.visible.set r n, s.lanes.set r n⟩ := by
  intro r' hr'
  rw [contains_set] at hr' ⊢
  exact hr'.imp_right (hc r')

@[simp] theorem inSight_set (s : Seen) (lanes : RegMap Nat) (r : Reg) (n : Nat) :
    inSight ⟨s.visible.set r n, lanes⟩ = {r' | r' ∈ s.inSight ∨ some r = some r'} := by
  ext r'
  simp only [inSight, Set.mem_ofPred_eq, contains_set, Option.some.injEq]
  rw [or_comm, eq_comm (a := r)]

/-- The lanes of every register are those counted. -/
def Agrees (s : Seen) (lanes : Reg → Nat) : Prop := ∀ r n, s.lanes.get? r = some n → lanes r = n

theorem width_of_agrees {s : Seen} {lanes : Reg → Nat} (hc : s.Counted) (ha : s.Agrees lanes)
    {x : Operand α} (hx : x.Reads s.inSight) : x.width lanes = s.width x := by
  cases x with
  | imm _ => rfl
  | reg r =>
    have hr : (s.lanes.get? r).isSome = true := hc r hx
    obtain ⟨n, hn⟩ := Option.isSome_iff_exists.mp hr
    simp [Operand.width, width, hn, ha r n hn]

end Seen

/-- What a checker's step tells of the code it has gone over: `set` are the registers that the code
sets. -/
structure Gives (s s' : Seen) (set : List Reg) (behind : Set Reg → Set Reg) (reads : Set Reg → Prop)
    (legal : (Reg → Nat) → Prop) : Prop where
  counted : s'.Counted
  agrees : ∀ lanes, s'.Agrees lanes → s.Agrees lanes
  contains_iff : ∀ r, s'.lanes.contains r = true ↔ s.lanes.contains r = true ∨ r ∈ set
  fresh : ∀ r ∈ set, s.lanes.contains r = false
  nodup : set.Nodup
  inSight : s'.inSight = behind s.inSight
  reads : reads s.inSight
  legal : ∀ lanes, s'.Agrees lanes → legal lanes

namespace Gives

variable {s s' s'' : Seen}

theorem same {reads : Set Reg → Prop} {legal : (Reg → Nat) → Prop} (hc : s.Counted)
    (hs : reads s.inSight) (hl : ∀ lanes, s.Agrees lanes → legal lanes) :
    Gives s s [] id reads legal :=
  ⟨hc, fun _ h => h, by simp, by simp, List.nodup_nil, rfl, hs, hl⟩

theorem define {r : Reg} {n : Nat} {reads : Set Reg → Prop} {legal : (Reg → Nat) → Prop}
    (h : s.define r n = .ok s') (hc : s.Counted) (hs : reads s.inSight)
    (hl : ∀ lanes, s.Agrees lanes → lanes r = n → legal lanes) :
    Gives s s' [r] (fun V => {r' | r' ∈ V ∨ some r = some r'}) reads legal := by
  obtain ⟨hr, rfl⟩ := Seen.define_eq_ok h
  have hag : ∀ lanes, Seen.Agrees ⟨s.visible.set r n, s.lanes.set r n⟩ lanes →
      s.Agrees lanes ∧ lanes r = n := by
    intro lanes ha
    refine ⟨fun r' n' hn => ha r' n' ?_, ha r n (by simp)⟩
    have hne : r' ≠ r := by
      rintro rfl
      simp [RegMap.contains, hn] at hr
    simpa [hne] using hn
  refine ⟨hc.set r n, fun lanes ha => (hag lanes ha).1, fun r' => ?_, by simpa using hr, by simp,
    s.inSight_set _ r n, hs, fun lanes ha => hl lanes (hag lanes ha).1 (hag lanes ha).2⟩
  rw [Seen.contains_set, List.mem_singleton, or_comm]

theorem seq {set set' : List Reg} {behind behind' : Set Reg → Set Reg}
    {reads reads' : Set Reg → Prop} {legal legal' : (Reg → Nat) → Prop}
    (h : Gives s s' set behind reads legal) (h' : Gives s' s'' set' behind' reads' legal') :
    Gives s s'' (set ++ set') (fun V => behind' (behind V)) (fun V => reads V ∧ reads' (behind V))
      (fun lanes => legal lanes ∧ legal' lanes) := by
  refine ⟨h'.counted, fun lanes ha => h.agrees lanes (h'.agrees lanes ha), ?_, ?_, ?_, ?_, ?_, ?_⟩
  · intro r
    rw [h'.contains_iff, h.contains_iff, List.mem_append, or_assoc]
  · intro r hr
    rcases List.mem_append.mp hr with hr | hr
    · exact h.fresh r hr
    · have := h'.fresh r hr
      by_contra hn
      have := (h.contains_iff r).mpr (Or.inl (by simpa using hn))
      simp_all
  · refine List.nodup_append.mpr ⟨h.nodup, h'.nodup, ?_⟩
    rintro r hr _ hr' rfl
    have h1 := (h.contains_iff r).mpr (Or.inr hr)
    have h2 := h'.fresh r hr'
    simp_all
  · rw [h'.inSight, h.inSight]
  · exact ⟨h.reads, h.inSight ▸ h'.reads⟩
  · exact fun lanes ha => ⟨h.legal lanes (h'.agrees lanes ha), h'.legal lanes ha⟩

end Gives
end Check

open Check

def Inst.Exact (shape : Option Shape) : Inst α → Prop
  | .load _ src n => IndicesExact shape src n
  | .store dst _ n => IndicesExact shape dst n
  | .binary _ _ _ _ | .call _ | .loop _ _ _ _ => True

def Inst.InWords (_ : Option Shape) : Inst α → Prop
  | .load _ a _ | .store a _ _ => a.InWords
  | .binary _ _ _ _ | .call _ | .loop _ _ _ _ => True

instance (shape : Option Shape) (a : Address) (lanes : Nat) :
    Decidable (IndicesExact shape a lanes) :=
  inferInstanceAs (Decidable (∀ n < span shape lanes, a.index n 0 = a.position n))

instance (shape : Option Shape) : ∀ inst : Inst α, Decidable (inst.Exact shape)
  | .load _ src n => inferInstanceAs (Decidable (IndicesExact shape src n))
  | .store dst _ n => inferInstanceAs (Decidable (IndicesExact shape dst n))
  | .binary _ _ _ _ | .call _ | .loop _ _ _ _ => .isTrue trivial

instance (shape : Option Shape) : ∀ inst : Inst α, Decidable (inst.InWords shape)
  | .load _ a _ | .store a _ _ => inferInstanceAs (Decidable a.InWords)
  | .binary _ _ _ _ | .call _ | .loop _ _ _ _ => .isTrue trivial

theorem Inst.Legal.admitted {context : Context α} {lanes : Reg → Nat} {shape : Option Shape}
    {inst : Inst α} (h : inst.Legal context lanes shape) : inst.Admitted context lanes shape := by
  cases inst with
  | load _ _ _ => exact ⟨h.1.access_eq_ok, h.2⟩
  | store _ _ _ => exact ⟨h.1.access_eq_ok, h.2⟩
  | _ => exact h

theorem Inst.Admitted.legal {context : Context α} {lanes : Reg → Nat} {shape : Option Shape}
    {inst : Inst α} (h : inst.Admitted context lanes shape) (he : inst.Exact shape) :
    inst.Legal context lanes shape := by
  cases inst with
  | load _ _ _ => exact ⟨reaches_of_access h.1 he, h.2⟩
  | store _ _ _ => exact ⟨reaches_of_access h.1 he, h.2⟩
  | _ => exact h

mutual

theorem Inst.gives_of_check {context : Context α} :
    ∀ {inst : Inst α} {shape : Option Shape} {s s' : Seen}, inst.check context shape s = .ok s' →
    s.Counted → Gives s s' inst.targets inst.define (fun V => inst.Scoped false V)
        (fun lanes => inst.Each (fun shape inst => inst.Admitted context lanes shape) shape)
  | .load dst src n, shape, s, s', h, hc => by
    simp only [Inst.check] at h
    obtain ⟨_, ha, hd⟩ := ok_of_bind h
    refine Gives.define hd hc trivial fun lanes _ hl => ⟨ha, Or.inr hl.symm⟩
  | .store dst src n, shape, s, s', h, hc => by
    simp only [Inst.check] at h
    obtain ⟨_, hr, h⟩ := ok_of_bind h
    obtain ⟨_, ha, h⟩ := ok_of_bind h
    obtain ⟨hw, h⟩ := refuse_bind_eq_ok_iff.mp h
    rw [Seen.readable_eq_ok_iff] at hr
    cases h
    rw [Inst.define_eq_id _ rfl]
    refine Gives.same hc hr fun lanes hl => ⟨ha, ?_⟩
    rw [Seen.width_of_agrees hc hl hr]
    omega
  | .binary dst op lhs rhs, shape, s, s', h, hc => by
    simp only [Inst.check] at h
    obtain ⟨_, hl, h⟩ := ok_of_bind h
    obtain ⟨_, hr, h⟩ := ok_of_bind h
    obtain ⟨hw, h⟩ := refuse_bind_eq_ok_iff.mp h
    rw [Seen.readable_eq_ok_iff] at hl hr
    refine Gives.define h hc ⟨hl, hr⟩ fun lanes ha hd => ?_
    simp only [Inst.Each, Inst.Admitted, Seen.width_of_agrees hc ha hl,
      Seen.width_of_agrees hc ha hr, hd, or_true, and_true]
    omega
  | .call callee, shape, s, s', h, hc => by
    simp only [Inst.check] at h
    split at h
    · rename_i hmem
      cases h
      rw [Inst.define_eq_id _ rfl]
      exact Gives.same hc trivial fun lanes _ => List.contains_iff_mem.mp hmem
    · cases h
  | .loop trips step parallel body, shape, s, s', h, hc => by
    simp only [Inst.check] at h
    obtain ⟨hshape, h⟩ := refuse_bind_eq_ok_iff.mp h
    obtain ⟨hstep, h⟩ := refuse_bind_eq_ok_iff.mp h
    obtain ⟨inner, hb, h⟩ := ok_of_bind h
    have hi := Block.gives_of_check hb hc
    cases h
    refine ⟨?_, hi.agrees, hi.contains_iff, hi.fresh, hi.nodup, ?_, hi.reads, fun lanes ha =>
      ⟨⟨by simpa using hshape, hstep⟩, hi.legal lanes ha⟩⟩
    · intro r hr
      exact (hi.contains_iff r).mpr (Or.inl (hc r hr))
    · simp [Inst.define, Inst.target?, Seen.inSight]

theorem Block.gives_of_check {context : Context α} :
    ∀ {body : List (Inst α)} {shape : Option Shape} {s s' : Seen},
      Block.check context shape body s = .ok s' → s.Counted →
      Gives s s' (Block.targets body) (Block.define body) (fun V => Block.Scoped false V body)
        (fun lanes => Block.Each (fun shape inst => inst.Admitted context lanes shape) shape body)
  | [], shape, s, s', h, hc => by
    cases h
    exact Gives.same hc trivial fun _ _ => trivial
  | inst :: rest, shape, s, s', h, hc => by
    obtain ⟨_, hi, hr⟩ := ok_of_bind h
    have gi := Inst.gives_of_check hi hc
    exact gi.seq (Block.gives_of_check hr gi.counted)

end

namespace Check
namespace Seen

/-- A register counted may hold fewer lanes than are expected of it, but then only one. -/
def Narrow (s : Seen) (lanes : Reg → Nat) : Prop :=
  ∀ r n, s.lanes.get? r = some n → n ≠ 0 ∧ (n = 1 ∨ n = lanes r)

theorem width_of_narrow {s : Seen} {lanes : Reg → Nat} (hc : s.Counted) (hn : s.Narrow lanes)
    {x : Operand α} (hx : x.Reads s.inSight) :
    s.width x ≠ 0 ∧ (s.width x = 1 ∨ s.width x = x.width lanes) := by
  cases x with
  | imm _ => simp [width]
  | reg r =>
    have hr : (s.lanes.get? r).isSome = true := hc r hx
    obtain ⟨n, hr⟩ := Option.isSome_iff_exists.mp hr
    simpa [Operand.width, width, hr] using hn r n hr

@[simp] theorem define_of_fresh {s : Seen} {r : Reg} (h : s.lanes.contains r = false) (n : Nat) :
    s.define r n = .ok ⟨s.visible.set r n, s.lanes.set r n⟩ := by
  simp [define, h]

end Seen

/-- What is left to know of a checker's step over code that it accepts. -/
structure Takes (lanes : Reg → Nat) (s s' : Seen) (set : List Reg) (behind : Set Reg → Set Reg) :
    Prop where
  counted : s'.Counted
  narrow : s'.Narrow lanes
  contains_iff : ∀ r, s'.lanes.contains r = true ↔ s.lanes.contains r = true ∨ r ∈ set
  inSight : s'.inSight = behind s.inSight

namespace Takes

variable {s s' s'' : Seen} {lanes : Reg → Nat}

theorem same (hc : s.Counted) (hn : s.Narrow lanes) : Takes lanes s s [] id :=
  ⟨hc, hn, by simp, rfl⟩

theorem define (hc : s.Counted) (hn : s.Narrow lanes) {r : Reg} {n : Nat} (h0 : n ≠ 0)
    (h1 : n = 1 ∨ n = lanes r) :
    Takes lanes s ⟨s.visible.set r n, s.lanes.set r n⟩ [r]
      (fun V => {r' | r' ∈ V ∨ some r = some r'}) := by
  refine ⟨hc.set r n, ?_, fun r' => ?_, s.inSight_set _ r n⟩
  · intro r' n' hr'
    by_cases hr : r' = r
    · subst hr
      have : n = n' := by simpa using hr'
      subst this
      exact ⟨h0, h1⟩
    · exact hn r' n' (by simpa [hr] using hr')
  · rw [Seen.contains_set, List.mem_singleton, or_comm]

theorem seq {set set' : List Reg} {behind behind' : Set Reg → Set Reg}
    (h : Takes lanes s s' set behind) (h' : Takes lanes s' s'' set' behind') :
    Takes lanes s s'' (set ++ set') (fun V => behind' (behind V)) := by
  refine ⟨h'.counted, h'.narrow, ?_, by rw [h'.inSight, h.inSight]⟩
  intro r
  rw [h'.contains_iff, h.contains_iff, List.mem_append, or_assoc]

theorem fresh {set : List Reg} {behind : Set Reg → Set Reg} (h : Takes lanes s s' set behind)
    {r : Reg} (hs : s.lanes.contains r = false) (hr : r ∉ set) : s'.lanes.contains r = false := by
  by_contra hn
  rcases (h.contains_iff r).mp (by simpa using hn) with h | h
  · simp_all
  · exact hr h

end Takes
end Check

open Check

mutual

theorem Inst.check_of_admitted {context : Context α} {lanes : Reg → Nat} :
    ∀ {inst : Inst α} {shape : Option Shape} {s : Seen},
      inst.Each (fun shape inst => inst.Admitted context lanes shape) shape →
      inst.Scoped false s.inSight → inst.targets.Nodup →
      (∀ r ∈ inst.targets, s.lanes.contains r = false) → s.Counted → s.Narrow lanes →
      ∃ s', inst.check context shape s = .ok s' ∧ Takes lanes s s' inst.targets inst.define
  | .load dst src n, shape, s, hl, _, _, hf, hc, hn => by
    have hd := Seen.define_of_fresh (hf dst (by simp [Inst.targets])) n
    refine ⟨_, ?_, Takes.define hc hn (lanes_ne_zero_of_access hl.1) hl.2⟩
    simp only [Inst.check, hl.1]
    exact hd
  | .store dst src n, shape, s, hl, hs, _, _, hc, hn => by
    have hw := Seen.width_of_narrow hc hn hs
    have hle : ¬(s.width src ≠ 1 ∧ s.width src ≠ n) := by
      have := hl.2
      omega
    refine ⟨s, ?_, Inst.define_eq_id (.store dst src n) rfl ▸ Takes.same hc hn⟩
    simp only [Inst.check, Seen.readable_eq_ok_iff.mpr hs, hl.1, if_neg hle]
    rfl
  | .binary dst op lhs rhs, shape, s, hl, hs, _, hf, hc, hn => by
    have hwl := Seen.width_of_narrow hc hn hs.1
    have hwr := Seen.width_of_narrow hc hn hs.2
    obtain ⟨h1, h2⟩ := hl
    have hle : ¬(s.width lhs ≠ s.width rhs ∧ s.width lhs ≠ 1 ∧ s.width rhs ≠ 1) := by omega
    have hd := Seen.define_of_fresh (hf dst (by simp [Inst.targets]))
      (max (s.width lhs) (s.width rhs))
    refine ⟨_, ?_, Takes.define hc hn (n := max (s.width lhs) (s.width rhs)) (by omega) (by omega)⟩
    simp only [Inst.check, Seen.readable_eq_ok_iff.mpr hs.1, Seen.readable_eq_ok_iff.mpr hs.2,
      if_neg hle]
    exact hd
  | .call callee, shape, s, hl, _, _, _, hc, hn => by
    refine ⟨s, ?_, Inst.define_eq_id (.call callee) rfl ▸ Takes.same hc hn⟩
    simp only [Inst.check]
    rw [if_pos (List.contains_iff_mem.mpr hl)]
  | .loop trips step parallel body, shape, s, hl, hs, hd, hf, hc, hn => by
    have hsb : Block.Scoped false s.inSight body := by simpa [Inst.Scoped] using hs
    obtain ⟨inner, hb, ht⟩ := Block.check_of_admitted hl.2 hsb hd hf hc hn
    refine ⟨{ inner with visible := s.visible }, ?_, ?_, ht.narrow, ht.contains_iff, ?_⟩
    · obtain ⟨rfl, hstep⟩ := hl.1
      simp only [Inst.check, Option.isSome_none, if_neg hstep, hb]
      rfl
    · intro r hr
      exact (ht.contains_iff r).mpr (Or.inl (hc r hr))
    · simp [Inst.define, Inst.target?, Seen.inSight]

theorem Block.check_of_admitted {context : Context α} {lanes : Reg → Nat} :
    ∀ {body : List (Inst α)} {shape : Option Shape} {s : Seen},
      Block.Each (fun shape inst => inst.Admitted context lanes shape) shape body →
      Block.Scoped false s.inSight body → (Block.targets body).Nodup →
      (∀ r ∈ Block.targets body, s.lanes.contains r = false) → s.Counted → s.Narrow lanes →
      ∃ s', Block.check context shape body s = .ok s' ∧
        Takes lanes s s' (Block.targets body) (Block.define body)
  | [], shape, s, _, _, _, _, hc, hn => ⟨s, rfl, Takes.same hc hn⟩
  | inst :: rest, shape, s, hl, hs, hd, hf, hc, hn => by
    obtain ⟨hdi, hdr, hdis⟩ := List.nodup_append.mp hd
    obtain ⟨s₁, hi, ti⟩ := Inst.check_of_admitted hl.1 hs.1 hdi
      (fun r hr => hf r (List.mem_append_left _ hr)) hc hn
    have hsr : Block.Scoped false s₁.inSight rest := ti.inSight ▸ hs.2
    have hfr : ∀ r ∈ Block.targets rest, s₁.lanes.contains r = false := fun r hr =>
      ti.fresh (hf r (List.mem_append_right _ hr)) fun hri => hdis r hri r hr rfl
    obtain ⟨s₂, hr, tr⟩ := Block.check_of_admitted hl.2 hsr hdr hfr ti.counted ti.narrow
    refine ⟨s₂, ?_, ti.seq tr⟩
    simp only [Block.check, hi]
    exact hr

end

/-- What is asked of a routine. In closed routines loops read nothing from outside. -/
structure Routine.Sound (context : Context α) (closed : Bool) (r : Routine α) : Prop where
  legal : ∃ lanes : Reg → Nat,
    Block.Each (fun shape inst => inst.Legal context lanes shape) none r.body
  reads : Block.Scoped closed ∅ r.body
  nodup : (Block.targets r.body).Nodup

structure Routine.Accepted (context : Context α) (r : Routine α) : Prop where
  admitted : ∃ lanes : Reg → Nat,
    Block.Each (fun shape inst => inst.Admitted context lanes shape) none r.body
  reads : Block.Scoped false ∅ r.body
  nodup : (Block.targets r.body).Nodup

@[simp] theorem Routine.check_eq_ok_iff {context : Context α} {r : Routine α} :
    r.check context = .ok () ↔ r.Accepted context := by
  constructor
  · intro h
    unfold Routine.check at h
    split at h
    · rename_i s hb
      have g := Block.gives_of_check hb (by simp [Seen.Counted, Seen.none, RegMap.contains])
      refine ⟨⟨fun r => (s.lanes.get? r).getD 1, g.legal _ ?_⟩, by simpa using g.reads, g.nodup⟩
      intro r n hr
      simp [hr]
    · cases h
  · rintro ⟨⟨lanes, hl⟩, hs, hd⟩
    have hs : Block.Scoped false Seen.none.inSight r.body := by rwa [Seen.inSight_none]
    obtain ⟨s, hc, -⟩ := Block.check_of_admitted hl hs hd (by simp [Seen.none, RegMap.contains])
      (by simp [Seen.Counted, Seen.none, RegMap.contains]) (by simp [Seen.Narrow, Seen.none])
    simp only [Routine.check, hc]

theorem Routine.Sound.check_eq_ok {context : Context α} {closed : Bool} {r : Routine α}
    (h : r.Sound context closed) : r.check context = .ok () := by
  obtain ⟨lanes, hl⟩ := h.legal
  exact Routine.check_eq_ok_iff.mpr ⟨⟨lanes, hl.imp fun _ _ hi => hi.admitted⟩,
    h.reads.mono (by simp) (Set.Subset.refl _), h.nodup⟩

theorem Routine.sound_of_check {context : Context α} {r : Routine α} (h : r.check context = .ok ())
    (he : Block.Each Inst.Exact none r.body) : r.Sound context false := by
  obtain ⟨⟨lanes, hl⟩, hs, hd⟩ := Routine.check_eq_ok_iff.mp h
  exact ⟨⟨lanes, (hl.and he).imp fun _ _ hi => hi.1.legal hi.2⟩, hs, hd⟩

@[simp] theorem firstRepeated?_eq_none_iff {seen names : List String} :
    firstRepeated? seen names = none ↔ names.Nodup ∧ ∀ name ∈ names, name ∉ seen := by
  induction names generalizing seen with
  | nil => simp [firstRepeated?]
  | cons name names ih =>
    simp only [firstRepeated?]
    by_cases h : name ∈ seen
    · simp [h]
    · rw [if_neg (by simpa using h), ih, List.nodup_cons]
      constructor
      · rintro ⟨hd, hn⟩
        refine ⟨⟨fun hm => hn name hm List.mem_cons_self, hd⟩, List.forall_mem_cons.mpr ⟨h, ?_⟩⟩
        exact fun n hm hs => hn n hm (List.mem_cons_of_mem _ hs)
      · rintro ⟨⟨hm, hd⟩, hn⟩
        refine ⟨hd, fun n hmem hs => ?_⟩
        rcases List.mem_cons.mp hs with rfl | hs
        · exact hm hmem
        · exact hn n (List.mem_cons_of_mem _ hmem) hs

/-- Where no two routines have the same name, each is found by its own. -/
theorem Program.routine?_eq_some {p : Program α} (hn : p.routineNames.Nodup) {r : Routine α}
    (hr : r ∈ p.routines) :
    p.routine? r.name = some r := by
  cases hr' : p.routine? r.name with
  | none => exact absurd (by simp) (List.find?_eq_none.mp hr' r hr)
  | some r' =>
    have hname : r'.name = r.name := Program.name_of_routine? hr'
    exact congrArg some (List.inj_on_of_nodup_map hn (Program.mem_of_routine? hr') hr hname)

@[simp] theorem Program.check_eq_ok_iff {p : Program α} :
    p.check = .ok () ↔ p.routineNames.Nodup ∧ ∀ r ∈ p.routines, r.check p.context = .ok () := by
  unfold Program.check
  have hn := @firstRepeated?_eq_none_iff [] p.routineNames
  cases h : firstRepeated? [] p.routineNames with
  | some name => simp_all
  | none =>
    refine forM_eq_ok_iff.trans ⟨fun hr => ⟨(hn.mp h).1, hr⟩, fun hr => hr.2⟩

end StreamStats
