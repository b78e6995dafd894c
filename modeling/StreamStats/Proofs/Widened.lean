import StreamStats.Proofs.Filled
import StreamStats.Proofs.Rewriting
import StreamStats.Proofs.Uses
import StreamStats.Proofs.Widening

/-! Widening the loops of checked programs. A loop may read registers from outside as long as they
hold single values, which may be thought of as written out in the loop; but the loop for what the
width leaves over has other names for all registers, those from outside included, so that it must
not read any. Where no index runs over a word either, programs stay checked and no caller sees a
difference. -/

namespace StreamStats

open Exec Check

variable {α : Type}

/-- What a loop that is widened needs for it to go well: no index runs over a word, and what the
body reads from outside are single values, if the width leaves nothing over. -/
def Inst.WidensWell (lanes : Reg → Nat) (w : Nat) : Inst α → Prop
  | .loop trips step parallel body =>
    ((Inst.loop trips step parallel body).widened? w 0).isSome = true →
      Block.Each Inst.Exact (some ⟨trips, 1⟩) body ∧
        ∀ r ∈ Block.uses body, r ∉ Block.targets body → lanes r = 1 ∧ trips % w = 0
  | _ => True

/-- The lanes that the checker counts in the registers. -/
def Routine.lanes (context : Context α) (r : Routine α) : Reg → Nat :=
  match Block.check context none r.body Seen.none with
  | .ok seen => fun t => (seen.lanes.get? t).getD 1
  | .error _ => fun _ => 1

theorem Routine.Accepted.admitted_lanes {context : Context α} {r : Routine α}
    (h : r.Accepted context) :
    Block.Each (fun shape inst => inst.Admitted context (r.lanes context) shape) none r.body := by
  have hcheck := Routine.check_eq_ok_iff.mpr h
  cases hb : Block.check context none r.body Seen.none with
  | error e =>
    simp only [Routine.check, hb] at hcheck
    cases hcheck
  | ok seen =>
    have hgives := Block.gives_of_check hb (by simp [Seen.Counted, Seen.none, RegMap.contains])
    simp only [Routine.lanes, hb]
    exact hgives.legal _ fun r n hr => by simp [hr]

mutual

theorem Inst.mem_mentions_of_operand :
    ∀ {inst : Inst α} {r : Reg}, Operand.reg r ∈ inst.operands → r ∈ inst.mentions
  | .load _ _ _, _, h | .call _, _, h => by simp [Inst.operands] at h
  | .store _ _ _, _, h => by
    rw [Inst.operands, List.mem_singleton] at h
    simp [Inst.mentions, ← h, Operand.reg?]
  | .binary _ _ _ _, _, h => by
    rw [Inst.operands, List.mem_cons, List.mem_singleton] at h
    rcases h with h | h <;> simp [Inst.mentions, ← h, Operand.reg?]
  | .loop _ _ _ _, _, h => Block.mem_mentions_of_operand h

theorem Block.mem_mentions_of_operand :
    ∀ {body : List (Inst α)} {r : Reg}, Operand.reg r ∈ Block.operands body →
    r ∈ Block.mentions body
  | [], _, h => by simp [Block.operands] at h
  | _ :: _, _, h => List.mem_append.mpr ((List.mem_append.mp h).imp Inst.mem_mentions_of_operand
      Block.mem_mentions_of_operand)

end

theorem Block.mem_operands {body : Block α} {x : Operand α} :
    x ∈ Block.operands body ↔ ∃ inst ∈ body, x ∈ inst.operands := by
  induction body with
  | nil => simp [Block.operands]
  | cons inst rest ih => simp [Block.operands, ih]

theorem Block.mem_uses {body : Block α} {r : Reg} :
    r ∈ Block.uses body ↔ Operand.reg r ∈ Block.operands body := by
  rw [Block.uses, List.mem_filterMap]
  constructor
  · rintro ⟨x, hx, hr⟩
    cases x <;> cases hr
    exact hx
  · exact fun h => ⟨_, h, rfl⟩

def Info.single : Info α := ⟨1, Set.univ, Nat.one_ne_zero⟩

namespace Inst

variable {context : Context α} {lanes lanes' : Reg → Nat} {shape : Option Shape} {inst : Inst α}

theorem IsSingle.each (h : inst.IsSingle) {P : Option Shape → Inst α → Prop} :
    inst.Each P shape ↔ P shape inst := by
  cases inst with
  | loop _ _ _ _ => exact h.elim
  | _ => exact Iff.rfl

theorem IsSingle.mapOperands (h : inst.IsSingle) (φ : Operand α → Operand α) :
    (inst.mapOperands φ).IsSingle := by
  cases inst <;> exact h

theorem IsSingle.plain [Scalar α] (h : inst.IsSingle) (hl : inst.Legal context lanes shape)
    (φ : Operand α → Operand α) :
    (inst.mapOperands φ).Plain context Set.univ (fun _ => .single) shape := by
  have hlanes : ∀ x : Operand α, x.lanes (fun _ => Info.single) = 1 := fun x => by cases x <;> rfl
  cases inst with
  | load dst src n => exact ⟨hl.1, Or.inl h, fun _ => h, fun _ _ => trivial⟩
  | store dst x n => exact ⟨hl.1, Or.inl (hlanes _), Set.subset_univ _⟩
  | binary dst op x y =>
    refine ⟨?_, ⟨Set.subset_univ _, Set.subset_univ _⟩, ⟨Set.subset_univ _, Set.subset_univ _⟩,
      fun _ _ _ _ => trivial⟩
    refine ⟨Or.inl ((hlanes _).trans (hlanes _).symm), Or.inl ?_⟩
    rw [hlanes, hlanes]
    rfl
  | call _ => exact h.elim
  | loop _ _ _ _ => exact h.elim

@[simp] theorem widen_mapOperands (w : Nat) (φ : Operand α → Operand α) (inst : Inst α) :
    (inst.mapOperands φ).widen w = (inst.widen w).mapOperands φ := by
  cases inst <;> rfl

theorem IsSingle.admitted_widen (h : inst.IsSingle) {trips q w : Nat}
    (hl : inst.Legal context lanes (some ⟨trips, 1⟩)) (hw : w ≠ 0) (hq : q * w ≤ trips)
    (huses : ∀ r ∈ inst.uses, lanes' r = 1 ∨ lanes' r = w)
    (htarget : ∀ t, inst.target? = some t → lanes' t = w) :
    (inst.widen w).Each (fun shape inst => inst.Admitted context lanes' shape) (some ⟨q, w⟩) := by
  have hwidth : ∀ x : Operand α, x ∈ inst.operands → x.width lanes' = 1 ∨ x.width lanes' = w := by
    intro x hx
    cases x with
    | imm _ => exact Or.inl rfl
    | reg r => exact huses r (List.mem_filterMap.mpr ⟨.reg r, hx, rfl⟩)
  cases inst with
  | load dst src n =>
    cases h
    have hdst := htarget dst rfl
    simp only [widen]
    by_cases hs : src.stride = 0
    · rw [if_pos hs]
      exact ⟨(hl.1.widen hw hq (Or.inr ⟨rfl, hs⟩)).access_eq_ok, Or.inl rfl⟩
    · rw [if_neg hs]
      exact ⟨(hl.1.widen hw hq (Or.inl rfl)).access_eq_ok, Or.inr hdst.symm⟩
  | store dst x n =>
    obtain ⟨rfl, -⟩ := h
    exact ⟨(hl.1.widen hw hq (Or.inl rfl)).access_eq_ok, hwidth x (by simp [operands])⟩
  | binary dst op x y =>
    have hx := hwidth x (by simp [operands])
    have hy := hwidth y (by simp [operands])
    have hdst := htarget dst rfl
    show (_ ∨ _ ∨ _) ∧ (_ ∨ _)
    omega
  | call _ => exact h.elim
  | loop _ _ _ _ => exact h.elim

end Inst

namespace Block

variable {values : Reg → Option α} {body : Block α}

@[simp] theorem loads_mapOperands (φ : Operand α → Operand α) (body : Block α) :
    loads (mapOperands φ body) = loads body := by
  induction body with
  | nil => rfl
  | cons inst rest ih => cases inst <;> simpa [loads, mapOperands, Inst.mapOperands] using ih

@[simp] theorem stores_mapOperands (φ : Operand α → Operand α) (body : Block α) :
    stores (mapOperands φ body) = stores body := by
  induction body with
  | nil => rfl
  | cons inst rest ih => cases inst <;> simpa [stores, mapOperands, Inst.mapOperands] using ih

theorem scoped_fill {body : List (Inst α)} (hsingle : ∀ inst ∈ body, inst.IsSingle) :
    ∀ {V W : Set Reg}, Block.Scoped false V body →
    (∀ r ∈ V, r ∈ Block.uses body → r ∉ W → (values r).isSome) →
      Block.Scoped true W (Block.mapOperands (Operand.fill values) body) := by
  induction body with
  | nil => exact fun _ _ => trivial
  | cons inst rest ih =>
    intro V W hs hV
    have hreads : ∀ x ∈ inst.operands, x.Reads V → (x.fill values).Reads W := by
      intro x hx hr
      cases x with
      | imm _ => trivial
      | reg r =>
        by_cases hW : r ∈ W
        · cases hv : values r with
          | none => simpa [Operand.fill, hv, Operand.Reads] using hW
          | some v => simp [Operand.fill, hv, Operand.Reads]
        · have hu : r ∈ Block.uses (inst :: rest) :=
            List.mem_filterMap.mpr ⟨.reg r, List.mem_append_left _ hx, rfl⟩
          obtain ⟨v, hv⟩ := Option.isSome_iff_exists.mp (hV r hr hu hW)
          simp [Operand.fill, hv, Operand.Reads]
    have hrest : Block.Scoped true (inst.define W)
        (Block.mapOperands (Operand.fill values) rest) := by
      refine ih (fun i hi => hsingle i (List.mem_cons_of_mem _ hi)) hs.2 fun r hr hu hW => ?_
      have hW : r ∉ W ∧ inst.target? ≠ some r := not_or.mp hW
      have hu : r ∈ Block.uses (inst :: rest) := by
        rw [Block.uses, Block.operands, List.filterMap_append]
        exact List.mem_append_right _ hu
      exact hV r (hr.resolve_right hW.2) hu hW.1
    have hi := hsingle inst List.mem_cons_self
    cases inst with
    | load _ _ _ => exact ⟨trivial, hrest⟩
    | store _ x _ => exact ⟨hreads x (by simp [Inst.operands]) hs.1, hrest⟩
    | binary _ _ x y =>
      exact ⟨⟨hreads x (by simp [Inst.operands]) hs.1.1, hreads y (by simp [Inst.operands]) hs.1.2⟩,
        hrest⟩
    | call _ => exact hi.elim
    | loop _ _ _ _ => exact hi.elim

end Block

theorem Frame.Typed.exists_values {lanes : Reg → Nat} {V : Set Reg} {f : Frame α}
    (hf : f.Typed lanes V) {reads : List Reg} (hl : ∀ r ∈ V, r ∈ reads → lanes r = 1) :
    ∃ values : Reg → Option α,
      (∀ r v, values r = some v → r ∈ V ∧ f.get? r = some [v]) ∧ ∀ r ∈ V, r ∈ reads →
      (values r).isSome := by
  classical
  have hvalue : ∀ r ∈ V, r ∈ reads → ∃ v, f.get? r = some [v] := by
    intro r hV hr
    obtain ⟨xs, hxs, -, hlen⟩ := hf r hV
    rw [hl r hV hr, or_self] at hlen
    obtain ⟨v, rfl⟩ := List.length_eq_one_iff.mp hlen
    exact ⟨v, hxs⟩
  refine ⟨fun r => if h : r ∈ V ∧ r ∈ reads then some (hvalue r h.1 h.2).choose else none,
    fun r v hv => ?_, fun r hV hr => by simp [hV, hr]⟩
  by_cases h : r ∈ V ∧ r ∈ reads
  · simp only [dif_pos h, Option.some.injEq] at hv
    subst hv
    exact ⟨h.1, (hvalue r h.1 h.2).choose_spec⟩
  · simp only [dif_neg h, reduceCtorEq] at hv

variable [Scalar α] {context : Context α} {lanes : Reg → Nat} {V : Set Reg} {bound trips q w : Nat}
    {parallel : Bool}
  {body : Block α} {rel : (String → Exec α Unit) → (String → Exec α Unit) → Prop}

theorem Swaps.grafts {S : Set α} {info : Reg → Info α} {count : Nat} {inst : Inst α}
    {part : Block α} (hs : Swaps rel context S info bound count [inst] part)
    (hend : ∀ (call : String → Exec α Unit) (name : String) (f : Frame α) (m : Memory α),
      m.Fits context.segments → ∃ f' m', Block.exec call name 0 [inst] f m = .ok f' m') :
    Grafts (.exact context.segments) rel context lanes V bound (bound + count) [inst] part := by
  classical
  obtain ⟨info', -, htame⟩ := hs.tame
  obtain ⟨lanes₁, -, hl⟩ := Block.exists_lanes htame hs.reads hs.nodup (by simp)
  refine ⟨Nat.le_add_right _ _, ⟨fun r => if r ∈ Block.targets part then lanes₁ r else lanes r,
    fun r hr hn => ?_, ?_⟩, hs.reads.mono (by simp) (Set.empty_subset _), hs.targets, hs.nodup, ?_⟩
  · refine if_neg fun ht => ?_
    rcases hs.targets r ht with ht | ht
    · exact hn ht
    · omega
  · refine hl.congr (fun _ _ hi h => (h.congr hi).admitted) fun r hr => (if_pos ?_).symm
    exact (Block.mentions_of_scoped hs.reads r hr).resolve_left (by simp)
  · intro call call' hcall name f g m _ _ hm
    obtain ⟨f', m', hx⟩ := hend call name f m hm
    obtain ⟨g', n', hy, rfl, hm'⟩ := hs.follows hcall name f g m hm f' m' hx
    rw [hx, hy]
    exact .ok trivial hm'

/-- Whether its counts are taken one by one or `w` at a time, a loop that can be widened ends, in
the same memory. -/
theorem Block.Widenable.ends_alike {S : Set α} {info : Reg → Info α}
    (h : body.Widenable context S info trips) (call call' : String → Exec α Unit) (name : String)
    (parallel : Bool) (hw : w ≠ 0) (hq : q * w = trips) (f g : Frame α) {m : Memory α}
    (hm : m.Fits context.segments) : ∃ m', Memory.Fits context.segments m' ∧
      (∃ f', Block.exec call name 0 [.loop trips 1 parallel body] f m = .ok f' m') ∧
        ∃ g', Block.exec call' name 0 [.loop trips w true (body.map (Inst.widen w))] g m =
          .ok g' m' := by
  subst hq
  obtain ⟨f', hx, hm'⟩ := h.ends call name parallel ⟨fun _ _ => 0, m⟩ f hm
  obtain ⟨g', hy, -⟩ := h.wide_ends call' name hw (Nat.le_refl _) ⟨fun _ _ => 0, m⟩ g hm
  exact ⟨_, hm', ⟨f', hx⟩, g', hy⟩

omit [Scalar α] in
theorem Block.targets_loop (trips step : Nat) (parallel : Bool) (body : Block α) :
    Block.targets [Inst.loop trips step parallel body] = Block.targets body :=
  Block.targets_singleton _

namespace Graftable

omit [Scalar α] in
theorem legal (h : Graftable context lanes V bound [.loop trips 1 parallel body])
    (hsingle : ∀ inst ∈ body, inst.IsSingle)
    (hexact : Block.Each Inst.Exact (some ⟨trips, 1⟩) body) :
    ∀ inst ∈ body, inst.Legal context lanes (some ⟨trips, 1⟩) := by
  have hadmitted := h.admitted.1.2
  rw [iterations_one] at hadmitted
  intro inst hi
  exact ((hsingle inst hi).each.mp (Block.each_iff.mp hadmitted inst hi)).legal
    ((hsingle inst hi).each.mp (Block.each_iff.mp hexact inst hi))

theorem widenable (h : Graftable context lanes V bound [.loop trips 1 parallel body])
    (hsingle : ∀ inst ∈ body, inst.IsSingle) (hsep : Block.isSeparate body = true)
    (hexact : Block.Each Inst.Exact (some ⟨trips, 1⟩) body) {values : Reg → Option α}
    (hv : ∀ r ∈ V, r ∈ Block.uses body → (values r).isSome) :
    Block.Widenable context Set.univ
      (fun _ => .single) trips (Block.mapOperands (Operand.fill values) body) := by
  have hmap := Block.mapOperands_eq_map (Operand.fill values) body
  refine ⟨fun inst hi => ?_, fun inst hi => ?_, ?_, ?_⟩
  · rw [hmap] at hi
    obtain ⟨inst, hmem, rfl⟩ := List.mem_map.mp hi
    exact (hsingle inst hmem).plain (h.legal hsingle hexact inst hmem) _
  · rw [hmap] at hi
    obtain ⟨inst, hmem, rfl⟩ := List.mem_map.mp hi
    exact (hsingle inst hmem).mapOperands _
  · rwa [Block.isSeparate, Block.loads_mapOperands, Block.stores_mapOperands]
  · have hs : Block.Scoped false V body := by simpa [Block.Scoped, Inst.Scoped] using h.reads
    exact Block.scoped_fill hsingle hs fun r hr hu _ => hv r hr hu

omit [Scalar α] in
theorem admitted_wide (h : Graftable context lanes V bound [.loop trips 1 parallel body])
    (hsingle : ∀ inst ∈ body, inst.IsSingle) (hexact : Block.Each Inst.Exact (some ⟨trips, 1⟩) body)
    (houter : ∀ r ∈ Block.uses body, r ∉ Block.targets body → lanes r = 1) (hw : w ≠ 0)
    (hq : q * w = trips) {lanes' : Reg → Nat} (htargets : ∀ r ∈ Block.targets body, lanes' r = w)
    (hothers : ∀ r ∉ Block.targets body, lanes' r = lanes r) :
    Block.Each (fun shape inst => inst.Admitted context lanes' shape) none
      [.loop trips w true (body.map (Inst.widen w))] := by
  refine ⟨⟨⟨rfl, hw⟩, Block.each_iff.mpr fun inst' hi' => ?_⟩, trivial⟩
  obtain ⟨inst, hi, rfl⟩ := List.mem_map.mp hi'
  rw [← hq, iterations_mul q hw]
  refine (hsingle inst hi).admitted_widen (h.legal hsingle hexact inst hi) hw hq.le
    (fun r hr => ?_) fun t ht => ?_
  · have hu : r ∈ Block.uses body := by
      obtain ⟨x, hx, hr⟩ := List.mem_filterMap.mp hr
      exact List.mem_filterMap.mpr ⟨x, Block.mem_operands.mpr ⟨inst, hi, hx⟩, hr⟩
    by_cases ht : r ∈ Block.targets body
    · exact Or.inr (htargets r ht)
    · exact Or.inl ((hothers r ht).trans (houter r hu ht))
  · exact htargets t (Block.mem_targets.mpr ⟨inst, hi, Inst.mem_targets_of_target? ht⟩)

/-- With the values that the frames hold filled in, the loop and the widened one read nothing from
outside. -/
theorem mirrors_wide (h : Graftable context lanes V bound [.loop trips 1 parallel body])
    (hsingle : ∀ inst ∈ body, inst.IsSingle) (hsep : Block.isSeparate body = true)
    (hexact : Block.Each Inst.Exact (some ⟨trips, 1⟩) body)
    (houter : ∀ r ∈ Block.uses body, r ∉ Block.targets body → lanes r = 1) (hw : w ≠ 0)
    (hq : q * w = trips) (call call' : String → Exec α Unit) (name : String) {f g : Frame α}
    {m : Memory α} (hf : Frame.Renames id V f g) (ht : f.Typed lanes V)
    (hm : m.Fits context.segments) :
    Mirrors (.exact context.segments)
      (fun _ _ => True) (Block.exec call name 0 [.loop trips 1 parallel body] f m)
        (Block.exec call' name 0 [.loop trips w true (body.map (Inst.widen w))] g m) := by
  have hV : ∀ r ∈ V, r ∉ Block.targets body := fun r hr ht =>
    (h.scope r hr).1 (Block.targets_loop trips 1 parallel body ▸ ht)
  obtain ⟨values, hvalues, hsome⟩ := ht.exists_values fun r hr hu => houter r hu (hV r hr)
  have hnone : ∀ t ∈ Block.targets body, values t = none := fun t ht => by
    cases hv : values t with
    | none => rfl
    | some v => exact absurd ht (hV t (hvalues t v hv).1)
  obtain ⟨m', hm', ⟨f', hx⟩, g', hy⟩ :=
    (h.widenable hsingle hsep hexact hsome).ends_alike call call' name parallel hw hq f g hm
  have hold : Block.exec call name 0 [.loop trips 1 parallel body] f m = .ok f' m' := by
    refine (Block.exec_fill (?_ : ∀ t ∈ _, values t = none) fun r v hv =>
      (hvalues r v hv).2).symm.trans hx
    rwa [Block.targets_loop]
  have hfill : Block.mapOperands (Operand.fill values) (body.map (Inst.widen w)) =
      (Block.mapOperands (Operand.fill values) body).map (Inst.widen w) := by
    simp only [Block.mapOperands_eq_map, List.map_map, Function.comp_def, Inst.widen_mapOperands]
  have hnew : Block.exec call' name 0 [.loop trips w true (body.map (Inst.widen w))] g m =
      .ok g' m' := by
    refine (Block.exec_fill (?_ : ∀ t ∈ _, values t = none) fun r v hv => ?_).symm.trans ?_
    · rwa [Block.targets_loop, Block.targets_map fun inst _ => Inst.targets_widen w inst]
    · obtain ⟨hr, hvalue⟩ := hvalues r v hv
      exact (hf r hr).trans hvalue
    · rw [Block.mapOperands, Inst.mapOperands, hfill]
      exact hy
  rw [hold, hnew]
  exact .ok trivial hm'

theorem grafts_wide (h : Graftable context lanes V bound [.loop trips 1 parallel body])
    (hsingle : ∀ inst ∈ body, inst.IsSingle) (hsep : Block.isSeparate body = true)
    (hexact : Block.Each Inst.Exact (some ⟨trips, 1⟩) body)
    (houter : ∀ r ∈ Block.uses body, r ∉ Block.targets body → lanes r = 1) (hw : w ≠ 0)
    (hq : q * w = trips) :
    Grafts (.exact context.segments) rel context lanes V bound bound [.loop trips 1 parallel body]
      [.loop trips w true (body.map (Inst.widen w))] := by
  classical
  have hold := Block.targets_loop trips 1 parallel body
  have hnew : Block.targets [Inst.loop trips w true (body.map (Inst.widen w))] =
      Block.targets body := by
    rw [Block.targets_loop, Block.targets_map fun inst _ => Inst.targets_widen w inst]
  have hs : Block.Scoped false V body := by simpa [Block.Scoped, Inst.Scoped] using h.reads
  refine ⟨Nat.le_refl _, ⟨fun r => if r ∈ Block.targets body then w else lanes r, fun r _ hr => ?_,
    ?_⟩, ?_, fun r hr => ?_, ?_, ?_⟩
  · exact if_neg (hold ▸ hr)
  · exact h.admitted_wide hsingle hexact houter hw hq (fun r hr => if_pos hr) fun r hr => if_neg hr
  · exact ⟨Inst.scoped_widen w body hs, trivial⟩
  · rw [hnew] at hr
    exact Or.inl (hold ▸ hr)
  · rw [hnew]
    exact hold ▸ h.nodup
  · intro call call' _ name f g m
    exact h.mirrors_wide hsingle hsep hexact houter hw hq call call' name

theorem grafts_wide_rest (h : Graftable context lanes V bound [.loop trips 1 parallel body])
    (hsingle : ∀ inst ∈ body, inst.IsSingle) (hsep : Block.isSeparate body = true)
    (hexact : Block.Each Inst.Exact (some ⟨trips, 1⟩) body)
    (hclosed : ∀ r ∈ Block.uses body, r ∈ Block.targets body) (hw : w ≠ 0) (hq : q * w < trips) :
    Grafts (.exact context.segments) rel context lanes V bound
      (bound + (Block.mentions body).eraseDups.length) [.loop trips 1 parallel body]
      [.loop (q * w) w true (body.map (Inst.widen w)), .loop (trips - q * w) 1 true
        ((Block.rename (Block.renumber body bound) body).map (Inst.advance (q * w)))] := by
  have htargets := Block.targets_loop trips 1 parallel body
  have hV : ∀ r ∈ V, r ∈ Block.uses body → ((fun _ => none : Reg → Option α) r).isSome :=
    fun r hr hu =>
    absurd (hclosed r hu) (htargets ▸ (h.scope r hr).1)
  have hbody := h.widenable hsingle hsep hexact hV
  rw [Block.mapOperands_eq_self Operand.fill_none] at hbody
  have hswaps : Swaps rel context Set.univ
      (fun _ => .single) bound _ [.loop trips 1 parallel body] _ :=
    Inst.swaps_wide_rest hw hq hbody (htargets ▸ h.nodup) fun r hr => h.target_lt (htargets ▸ hr)
  refine hswaps.grafts fun call name f m hm => ?_
  obtain ⟨f', hx, -⟩ := hbody.ends call name parallel ⟨fun _ _ => 0, m⟩ f hm
  exact ⟨f', _, hx⟩

end Graftable

namespace Inst

omit [Scalar α] in
theorem WidensWell.congr {inst : Inst α} {lanes' : Reg → Nat} (h : inst.WidensWell lanes w)
    (hl : ∀ r ∈ inst.mentions, lanes' r = lanes r) : inst.WidensWell lanes' w := by
  cases inst with
  | loop trips step parallel body =>
    intro hwide
    obtain ⟨hexact, houter⟩ := h hwide
    refine ⟨hexact, fun r hr ht => ?_⟩
    rw [hl r (Block.mem_mentions_of_operand (Block.mem_uses.mp hr))]
    exact houter r hr ht
  | _ => trivial

/-- A loop that widens well is replaced by loops that do alike. -/
theorem grafts_widened {inst : Inst α} {next next' : Nat} {loops : Block α} (hw : w ≠ 0)
    (hi : inst.widened? w next = some (loops, next')) (h : Graftable context lanes V next [inst])
    (hwell : inst.WidensWell lanes w) : inst.target? = none ∧
      Grafts (.exact context.segments) rel context lanes V next next' [inst] loops := by
  cases inst with
  | loop trips step parallel body =>
    refine ⟨rfl, ?_⟩
    simp only [widened?] at hi
    split at hi
    · rename_i hcond
      have hsome : ((Inst.loop trips step parallel body).widened? w 0).isSome = true := by
        simp only [widened?, if_pos hcond]
        split <;> rfl
      obtain ⟨hexact, houter⟩ := hwell hsome
      simp only [Bool.and_eq_true, beq_iff_eq] at hcond
      obtain ⟨⟨⟨⟨-, rfl⟩, -⟩, hscalar⟩, hsep⟩ := hcond
      have hsingle := Block.isScalar_iff.mp hscalar
      have hdiv := Nat.div_add_mod' trips w
      have hmain : trips - trips % w = trips / w * w := by omega
      rw [hmain] at hi
      split at hi
      · rename_i hrest
        cases hi
        refine h.grafts_wide_rest hsingle hsep hexact (fun r hr => ?_) hw hrest
        by_contra ht
        have := (houter r hr ht).2
        omega
      · rename_i hrest
        cases hi
        have heq : trips / w * w = trips := by omega
        rw [heq]
        exact h.grafts_wide hsingle hsep hexact (fun r hr ht => (houter r hr ht).1) hw heq
    · cases hi
  | _ => cases hi

end Inst

/-- Widening replaces loops by loops that do alike. -/
theorem Block.grafts_widen (hw : w ≠ 0) {body : List (Inst α)} :
    ∀ {lanes : Reg → Nat} {V : Set Reg} {next : Nat}, Graftable context lanes V next body →
      (∀ inst ∈ body, inst.WidensWell lanes w) →
      Grafts (.exact context.segments) (CallsMirror (.exact context.segments)) context lanes V next
        (Block.widen w next body).2.1 body (Block.widen w next body).1 := by
  induction body with
  | nil => exact fun _ _ => Grafts.nil
  | cons inst rest ih =>
    intro lanes V next h hwell
    have hrest := fun i hi => hwell i (List.mem_cons_of_mem _ hi)
    simp only [Block.widen]
    cases hi : inst.widened? w next with
    | some loops =>
      obtain ⟨loops, next'⟩ := loops
      obtain ⟨hnone, hloops⟩ := Inst.grafts_widened hw hi h.first (hwell inst List.mem_cons_self)
      refine Grafts.graft h hnone hloops fun lanes₁ hl h' => ih h' fun i hmem =>
        (hrest i hmem).congr fun r hr => ?_
      exact hl r (Block.mem_mentions.mpr ⟨i, hmem, hr⟩)
    | none =>
      exact Grafts.keep (fun _ _ hcall => hcall) (fun _ _ ha => ha.keeps_exact) h
        (ih (h.behind (Nat.le_refl _) fun _ _ _ => rfl) hrest)

theorem Routine.Accepted.widenLoops {r : Routine α} (h : r.Accepted context) (w : Nat)
    (hwell : ∀ inst ∈ r.body, inst.WidensWell (r.lanes context) w) :
    (r.widenLoops w).1.Accepted context ∧
    r.Mirrors (.exact context.segments) (r.widenLoops w).1 := by
  unfold Routine.widenLoops
  split
  · exact ⟨h, h.mirrors_self⟩
  · rename_i hw
    have hg : Graftable context (r.lanes context) ∅ r.sync.nextReg r.body :=
      ⟨h.admitted_lanes, h.reads, h.nodup, r.counted_sync, by simp⟩
    obtain ⟨-, ⟨lanes', -, hl⟩, hreads, -, hnodup, hmirrors⟩ :=
      Block.grafts_widen (w := w) (by omega) hg hwell
    refine ⟨⟨⟨lanes', hl⟩, hreads, hnodup⟩, rfl, fun call call' hcall m hm => ?_⟩
    exact hmirrors hcall r.name (fun _ _ => rfl) (by simp [Frame.Typed]) hm

namespace Program

omit [Scalar α] in
def widenedAt (p : Program α) (index w : Nat) : Program α :=
  match p.routines[index]? with
  | some r => p.setRoutine index (r.widenLoops w).1
  | none => p

/-- Where all its loops widen well, a routine of a checked program can have them widened: the
program stays checked, and whatever is done with a machine, it shows the same. -/
theorem widenedAt_shows {p : Program α} (h : p.check = .ok ()) (index w : Nat)
    (hwell : ∀ r, p.routines[index]? = some r → ∀ inst ∈ r.body,
      inst.WidensWell (r.lanes p.context) w) :
    (p.widenedAt index w).check = .ok () ∧ ∀ uses : List (Machine.Use α),
      (Machine.ofProgram (p.widenedAt index w)).shows uses = (Machine.ofProgram p).shows uses := by
  have haccepted := (check_eq_ok_iff_accepted.mp h).2
  unfold widenedAt
  split
  · rename_i r hr
    obtain ⟨hr', hmirrors⟩ := (haccepted r (List.mem_of_getElem? hr)).widenLoops w (hwell r hr)
    refine ⟨check_setRoutine h hr hmirrors.name_eq hr',
      Machine.shows_eq rfl (callsMirror ?_ callLimit)⟩
    exact forall₂_set (fun r hr => (haccepted r hr).mirrors_self) hr hmirrors
  · exact ⟨h, fun _ => rfl⟩

def balancing : Program Float where
  name := "balancing"
  segments := #[.zeros "input" .input 5, ⟨"factor", .constant, #[3]⟩, .zeros "output" .output 5,
    .zeros "sum" .state 5]
  routines := [.ofBody "scale" .external [
    .load 0 (.fixed 1 0) 1,
    .loop 4 1 true [.load 1 ⟨0, 1, 1⟩ 1, .binary 2 .mul (.reg 1) (.reg 0),
      .store ⟨2, 1, 1⟩ (.reg 2) 1],
    .loop 5 1 true [.load 3 ⟨0, 0, 1⟩ 1, .load 4 ⟨3, 0, 1⟩ 1, .binary 5 .add (.reg 3) (.reg 4),
      .store ⟨3, 0, 1⟩ (.reg 5) 1]]]

theorem widenedAt_shows_balancing :
    balancing.check = .ok () ∧
      (∀ r, balancing.routines[0]? = some r → ∀ inst ∈ r.body,
        inst.WidensWell (r.lanes balancing.context) 2) ∧
      (balancing.widenedAt 0 2).check = .ok () ∧ ∀ uses : List (Machine.Use Float),
        (Machine.ofProgram (balancing.widenedAt 0 2)).shows uses =
          (Machine.ofProgram balancing).shows uses := by
  have hc : balancing.check = .ok () := by decide +kernel
  have hwell : ∀ r, balancing.routines[0]? = some r → ∀ inst ∈ r.body,
      inst.WidensWell (r.lanes balancing.context) 2 := by
    intro r hr inst hi
    obtain rfl := Option.some.inj hr
    simp only [Routine.ofBody, Routine.sync, List.mem_cons, List.not_mem_nil, or_false] at hi
    rcases hi with rfl | rfl | rfl
    · trivial
    all_goals
      refine fun _ => ⟨?_, by decide +kernel⟩
      simp only [Block.Each, Inst.Each, Inst.Exact, Check.IndicesExact, span, and_true, true_and]
      decide
  exact ⟨hc, hwell, widenedAt_shows hc 0 2 hwell⟩

def rescaling : Program Float where
  name := "rescaling"
  segments := #[.zeros "input" .input 5, ⟨"factor", .constant, #[3]⟩, .zeros "output" .output 5]
  routines := [.ofBody "scale" .external [
    .load 0 (.fixed 1 0) 1,
    .loop 5 1 true [.load 1 ⟨0, 0, 1⟩ 1, .binary 2 .mul (.reg 1) (.reg 0),
      .store ⟨2, 0, 1⟩ (.reg 2) 1]]]

def doubled : Program Float where
  name := "doubled"
  segments := #[.zeros "input" .input 4, ⟨"factors", .constant, #[2, 3]⟩, .zeros "output" .output 4]
  routines := [.ofBody "copy" .external [
    .load 0 ⟨1, 0, 1⟩ 2,
    .loop 4 1 true [.load 1 ⟨0, 0, 1⟩ 1, .binary 2 .mul (.reg 1) (.reg 0),
      .store ⟨2, 0, 1⟩ (.reg 1) 1]]]

/-- Reads a value at the first and at the last of three counts, and far outside in between. -/
def straying : Program Float where
  name := "straying"
  segments := #[.zeros "input" .input 1, .zeros "output" .output 3]
  routines := [.ofBody "spread" .external [
    .loop 3 1 true [.load 0 ⟨0, 0, -signBound⟩ 1, .store ⟨1, 0, 1⟩ (.reg 0) 1]]]

/-- What the loop for the rest reads from outside, it reads under a new name that nothing has set.
Nor does widening go well where several lanes are read from outside, or where an index runs over a
word. -/
theorem not_widenedAt_shows :
    (rescaling.check = .ok () ∧ (rescaling.widenedAt 0 4).check = .error ⟨"scale", .undefined 5⟩ ∧
      ((Machine.ofProgram rescaling).run "scale" [1, 2, 3, 4, 5]).1 = .ok [3, 6, 9, 12, 15] ∧
      ((Machine.ofProgram (rescaling.widenedAt 0 4)).run "scale" [1, 2, 3, 4, 5]).1 =
        .error (.undefinedRegister "scale" 5)) ∧
    (doubled.check = .ok () ∧ (doubled.widenedAt 0 4).check = .error ⟨"copy", .operandLanes 4 2⟩) ∧
    (straying.check = .ok () ∧ (straying.widenedAt 0 3).check = .ok () ∧
      ((Machine.ofProgram straying).run "spread" [7]).2.memory = #[#[7], #[7, 0, 0]] ∧
      ((Machine.ofProgram (straying.widenedAt 0 3)).run "spread" [7]).2.memory =
        #[#[7], #[0, 0, 0]]) := by
  decide +kernel

end Program
end StreamStats
