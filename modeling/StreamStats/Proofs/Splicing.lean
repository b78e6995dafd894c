import StreamStats.Proofs.Renaming

/-! Code in which parts are replaced. A part may be replaced by code that does the same to memory,
if what one of the two leaves in registers is not read behind them. As registers come and go that
way, the states of the two codes agree on the registers that both have in scope. -/

namespace StreamStats

open Exec

variable {α : Type} [Scalar α]

/-- A part and what takes its place: it reads nothing from outside, sets registers that the part set
or new ones, `count` from `bound` on, and does the same to memory whenever calls on both sides are
related. -/
structure Swaps (rel : (String → Exec α Unit) → (String → Exec α Unit) → Prop) (context : Context α)
    (S : Set α) (info : Reg → Info α) (bound count : Nat) (part part' : Block α) : Prop where
  tame : ∃ info' : Reg → Info α, (∀ r : Nat, r < bound → info' r = info r) ∧
    ∀ inst ∈ part', inst.Tame context S info'
  reads : Block.Scoped true ∅ part'
  targets : ∀ r : Nat, r ∈ Block.targets part' →
    r ∈ Block.targets part ∨ bound ≤ r ∧ r < bound + count
  nodup : (Block.targets part').Nodup
  apart : ∀ r ∈ Block.define part ∅, r ∉ Block.define part' ∅
  follows : ∀ {call call' : String → Exec α Unit}, rel call call' →
    ∀ (name : String) (f g : Frame α) (m : Memory α), m.Fits context.segments →
      Follows (fun _ m' _ n' => Memory.Same context.segments m' n') (Block.exec call name 0 part f)
        m (Block.exec call' name 0 part' g) m

/-- Code in which parts are to be replaced, behind code of which `V` is the scope and `W` that of
what took its place. -/
structure Spliceable (context : Context α) (S : Set α) (info : Reg → Info α) (V W : Set Reg)
    (bound : Nat) (old : Block α) : Prop where
  tame : ∀ inst ∈ old, inst.Tame context S info
  reads : Block.Scoped true V old
  nodup : (Block.targets old).Nodup
  mentions : ∀ r : Nat, r ∈ Block.mentions old → r < bound
  /-- What is still read is in the new scope, too. -/
  live : ∀ r ∈ V, r ∈ Block.uses old → r ∈ W
  scope : ∀ r : Nat, r ∈ V ∪ W → r ∉ Block.targets old ∧ r < bound

/-- Code and what becomes of it, with new registers from `bound` up to `bound'`. -/
structure Splices (rel : (String → Exec α Unit) → (String → Exec α Unit) → Prop)
    (context : Context α) (S : Set α) (info : Reg → Info α) (V W : Set Reg) (bound bound' : Nat)
    (old new : Block α) : Prop where
  bound_le : bound ≤ bound'
  tame : ∃ info' : Reg → Info α, (∀ r : Nat, r < bound → info' r = info r) ∧
    ∀ inst ∈ new, inst.Tame context S info'
  reads : Block.Scoped true W new
  targets : ∀ r : Nat, r ∈ Block.targets new → r ∈ Block.targets old ∨ bound ≤ r ∧ r < bound'
  nodup : (Block.targets new).Nodup
  follows : ∀ {call call' : String → Exec α Unit}, rel call call' →
    ∀ (name : String) {f g : Frame α} {m n : Memory α},
    AgreeOn (Memory.Same context.segments) (V ∩ W) f m g n →
      Follows (fun _ m' _ n' => Memory.Same context.segments m' n') (Block.exec call name 0 old f) m
        (Block.exec call' name 0 new g) n

variable {rel : (String → Exec α Unit) → (String → Exec α Unit) → Prop} {context : Context α}
    {S : Set α}
  {info : Reg → Info α} {V W : Set Reg} {bound bound' count : Nat}
  {first part part' rest new : Block α}

omit [Scalar α] in
theorem Block.mem_or_mem_targets {body : Block α} {r : Reg} (h : r ∈ Block.define body V) :
    r ∈ V ∨ r ∈ Block.targets body :=
  (Block.mem_define.mp h).imp_right fun ⟨i, hi, ht⟩ =>
    Block.mem_targets.mpr ⟨i, hi, Inst.mem_targets_of_target? ht⟩

omit [Scalar α] in
theorem Block.mem_or_mem_define {body : Block α} {r : Reg} (h : r ∈ Block.define body V) :
    r ∈ V ∨ r ∈ Block.define body ∅ := by
  rw [Block.mem_define] at h ⊢
  exact h.imp_right Or.inr

omit [Scalar α] in
/-- Behind code that is replaced, what is still read is in the new scope, too. -/
theorem Block.live_behind (hlive : ∀ r ∈ V, r ∈ Block.uses (part ++ rest) → r ∈ W)
    (hd : ∀ r ∈ Block.define part ∅, r ∈ Block.uses rest → r ∈ Block.define part' ∅) :
    ∀ r ∈ Block.define part V, r ∈ Block.uses rest → r ∈ Block.define part' W := by
  intro r hr hu
  rcases Block.mem_or_mem_define hr with hr | hr
  · exact Block.subset_define _ _ (hlive r hr (Block.mem_uses_append.mpr (Or.inr hu)))
  · have hmem := hd r hr hu
    rw [Block.mem_define] at hmem ⊢
    exact Or.inr (hmem.resolve_left (by simp))

namespace Spliceable

theorem target_lt (h : Spliceable context S info V W bound first) {r : Nat}
    (hr : r ∈ Block.targets first) :
    r < bound := h.mentions r (Block.targets_subset_mentions first r hr)

theorem reads_both (h : Spliceable context S info V W bound (first ++ rest)) :
    Block.Scoped true (V ∩ W) first := (Block.scoped_append.mp h.reads).1.of_uses fun r hV hu =>
    ⟨hV, h.live r hV (Block.mem_uses_append.mpr (Or.inl hu))⟩

theorem left (h : Spliceable context S info V W bound (first ++ rest)) :
    Spliceable context S info V W bound first := by
  have hd := h.nodup
  rw [Block.targets_append] at hd
  refine ⟨fun i hi => h.tame i (List.mem_append_left _ hi), (Block.scoped_append.mp h.reads).1,
    (List.nodup_append.mp hd).1, fun r hr =>
      h.mentions r (Block.mem_mentions_append.mpr (Or.inl hr)),
    fun r hV hu => h.live r hV (Block.mem_uses_append.mpr (Or.inl hu)), fun r hr => ?_⟩
  obtain ⟨hn, hlt⟩ := h.scope r hr
  rw [Block.mem_targets_append, not_or] at hn
  exact ⟨hn.1, hlt⟩

theorem not_mem_both (h : Spliceable context S info V W bound (first ++ rest)) {r : Nat}
    (hr : r ∈ Block.targets first) : r ∉ Block.targets rest := by
  have hd := h.nodup
  rw [Block.targets_append] at hd
  exact fun hr' => (List.nodup_append.mp hd).2.2 r hr r hr' rfl

theorem behind (h : Spliceable context S info V W bound (part ++ rest)) (count : Nat)
    {info' : Reg → Info α} (hi : ∀ r : Nat, r < bound → info' r = info r)
    (ht : ∀ r : Nat, r ∈ Block.targets part' → r ∈ Block.targets part ∨ bound ≤ r ∧
      r < bound + count)
    (hd : ∀ r ∈ Block.define part ∅, r ∈ Block.uses rest → r ∈ Block.define part' ∅) :
    Spliceable context S info' (Block.define part V) (Block.define part' W)
      (bound + count) rest := by
  have hrest : ∀ r : Nat, r ∈ Block.mentions rest → r < bound := fun r hr =>
    h.mentions r (Block.mem_mentions_append.mpr (Or.inr hr))
  have hpart : ∀ r : Nat, r ∈ Block.targets part → r ∉ Block.targets rest ∧ r < bound := fun r hr =>
    ⟨h.not_mem_both hr, h.left.target_lt hr⟩
  have hnodup := h.nodup
  rw [Block.targets_append] at hnodup
  refine ⟨fun i hi' => ?_, (Block.scoped_append.mp h.reads).2, (List.nodup_append.mp hnodup).2.1,
    fun r hr => ?_, Block.live_behind h.live hd, fun r hr => ?_⟩
  · refine (h.tame i (List.mem_append_right _ hi')).congr fun r hr => (hi r ?_).symm
    exact hrest r (Block.mem_mentions.mpr ⟨i, hi', hr⟩)
  · exact Nat.lt_of_lt_of_le (hrest r hr) (Nat.le_add_right _ _)
  · have hscope : r ∈ V ∪ W → r ∉ Block.targets rest ∧ r < bound + count := by
      intro hr
      obtain ⟨hn, hlt⟩ := h.scope r hr
      rw [Block.mem_targets_append, not_or] at hn
      exact ⟨hn.2, by omega⟩
    rcases hr with hr | hr
    · rcases Block.mem_or_mem_targets hr with hr | hr
      · exact hscope (Or.inl hr)
      · have := hpart r hr
        exact ⟨this.1, by omega⟩
    · rcases Block.mem_or_mem_targets hr with hr | hr
      · exact hscope (Or.inr hr)
      · rcases ht r hr with hr | hr
        · have := hpart r hr
          exact ⟨this.1, by omega⟩
        · refine ⟨fun hr' => ?_, hr.2⟩
          have := hrest r (Block.targets_subset_mentions rest r hr')
          omega

theorem after (h : Spliceable context S info V W bound (first ++ rest)) :
    Spliceable context S info (Block.define first V) (Block.define first W) bound rest :=
  h.behind 0 (fun _ _ => rfl) (fun _ hr => Or.inl hr) fun _ hr _ => hr

/-- Behind a part and what takes its place, the frames agree: a register in both scopes is from
before, and neither of the two sets it. -/
theorem agree_behind (h : Spliceable context S info V W bound (part ++ rest))
    (hs : Swaps rel context S info bound count part part') {f f' g g' : Frame α}
    (ha : ∀ r ∈ V ∩ W, f.get? r = g.get? r) (hf : ∀ r ∉ Block.targets part, f'.get? r = f.get? r)
    (hg : ∀ r ∉ Block.targets part', g'.get? r = g.get? r) :
    ∀ r ∈ Block.define part V ∩ Block.define part' W, f'.get? r = g'.get? r := by
  rintro r ⟨hV, hW⟩
  have hold : r ∈ V ∪ W → r ∉ Block.targets part := fun hr => (h.left.scope r hr).1
  have hnew : r ∈ V ∪ W → r ∉ Block.targets part' := fun hr ht => by
    rcases hs.targets r ht with ht | ht
    · exact hold hr ht
    · exact absurd (h.left.scope r hr).2 (Nat.not_lt.mpr ht.1)
  have hV : r ∈ V := (Block.mem_or_mem_define hV).resolve_right fun hd => by
    have hd' : r ∈ Block.targets part := (Block.mem_or_mem_targets hd).resolve_left (by simp)
    rcases Block.mem_or_mem_define hW with hW | hW
    · exact hold (Or.inr hW) hd'
    · exact hs.apart r hd hW
  have hW : r ∈ W := (Block.mem_or_mem_targets hW).resolve_right (hnew (Or.inl hV))
  rw [hf r (hold (Or.inl hV)), ha r ⟨hV, hW⟩, hg r (hnew (Or.inl hV))]

end Spliceable

namespace Splices

@[simp] theorem nil : Splices rel context S info V W bound bound [] [] :=
  ⟨Nat.le_refl _, ⟨info, fun _ _ => rfl, by simp⟩, trivial,
    by simp [Block.targets], by simp [Block.targets], fun _ _ _ _ _ _ ha => Follows.pure ha.2⟩

theorem keep (hrel : ∀ call call', rel call call' →
    CallsFollow (Memory.Same context.segments) call call')
    (h : Spliceable context S info V W bound (first ++ rest))
    (hrest : Splices rel context S info (Block.define first V) (Block.define first W) bound bound'
      rest new) :
    Splices rel context S info V W bound bound' (first ++ rest) (first ++ new) := by
  obtain ⟨info', hinfo, htame⟩ := hrest.tame
  refine ⟨hrest.bound_le, ⟨info', hinfo, fun inst hi => ?_⟩, ?_,
    Block.targets_replaced (fun _ => Or.inl) hrest.targets,
    Block.nodup_replaced h.nodup (fun _ => h.target_lt) (fun _ => Or.inl)
      (fun r hr => (hrest.targets r hr).imp_right And.left)
      (Nat.le_refl _) h.left.nodup hrest.nodup, ?_⟩
  · rcases List.mem_append.mp hi with hi | hi
    · refine (h.left.tame inst hi).congr fun r hr => (hinfo r ?_).symm
      exact h.left.mentions r (Block.mem_mentions.mpr ⟨inst, hi, hr⟩)
    · exact htame inst hi
  · exact Block.scoped_append.mpr
      ⟨Block.Scoped.mono (fun h => h) Set.inter_subset_right h.reads_both, hrest.reads⟩
  · intro call call' hcall name f g m n ha
    rw [Block.exec_append, Block.exec_append]
    have hwrites : Block.Each (Inst.Writes context.segments) none first :=
      Block.each_iff.mpr fun inst hi => (h.left.tame inst hi).writes
    refine (Block.exec_scoped (hrel _ _ hcall) hwrites h.reads_both h.left.nodup
      (fun r hr ht => (h.left.scope r (Or.inl hr.1)).1 ht) ha).bind fun f' m' g' n' ha' => ?_
    refine hrest.follows hcall name (ha'.mono ?_)
    rintro r ⟨hV, hW⟩
    rw [Block.mem_define] at hV hW ⊢
    exact hV.elim (fun hV => hW.imp_left fun hW => ⟨hV, hW⟩) Or.inr

/-- A part is replaced, before code in which further parts are. -/
theorem splice (h : Spliceable context S info V W bound (part ++ rest))
    (hs : Swaps rel context S info bound count part part')
    (hdead : ∀ r ∈ Block.define part ∅, r ∉ Block.uses rest)
    (hrest : ∀ (info' : Reg → Info α) (V' W' : Set Reg), Spliceable context S info' V' W'
      (bound + count) rest → Splices rel context S info' V' W' (bound + count) bound' rest new) :
    Splices rel context S info V W bound bound' (part ++ rest) (part' ++ new) := by
  obtain ⟨info₁, hinfo₁, htame₁⟩ := hs.tame
  obtain ⟨hle, ⟨info', hinfo', htame⟩, hreads, htargets, hnodup, hfollows⟩ :=
    hrest _ _ _ (h.behind count hinfo₁ hs.targets fun r hr hu => absurd hu (hdead r hr))
  refine ⟨by omega, ⟨info', fun r hr => ?_, fun inst hi => ?_⟩, ?_,
    Block.targets_replaced (fun r hr => (hs.targets r hr).imp_right fun hr => by omega)
      fun r hr => (htargets r hr).imp_right fun hr => by omega,
    Block.nodup_replaced h.nodup (fun _ => h.target_lt) hs.targets
      (fun r hr => (htargets r hr).imp_right And.left) (Nat.le_add_right _ _) hs.nodup hnodup, ?_⟩
  · rw [hinfo' r (by omega), hinfo₁ r hr]
  · rcases List.mem_append.mp hi with hi | hi
    · refine (htame₁ inst hi).congr fun r hr => (hinfo' r ?_).symm
      have hm : r ∈ Block.targets part' :=
        (Block.mentions_of_scoped hs.reads r (Block.mem_mentions.mpr ⟨inst, hi, hr⟩)).resolve_left
        (by simp)
      rcases hs.targets r hm with hr | hr
      · have := h.left.target_lt hr
        omega
      · exact hr.2
    · exact htame inst hi
  · exact Block.scoped_append.mpr ⟨Block.Scoped.mono (fun h => h) (Set.empty_subset _) hs.reads,
      hreads⟩
  · intro call call' hcall name f g m n ha
    obtain ⟨hf, rfl, hm⟩ := ha
    rw [Block.exec_append, Block.exec_append]
    intro b m' hx
    obtain ⟨f₁, m₁, hx₁, hx₂⟩ := Exec.bind_eq_ok hx
    obtain ⟨g₁, n₁, hy₁, rfl, hm₁⟩ := hs.follows hcall name f g m hm f₁ m₁ hx₁
    have hagree := h.agree_behind hs hf (Block.exec_frame f₁ m₁ hx₁) (Block.exec_frame g₁ m₁ hy₁)
    obtain ⟨c, n', hy₂, hsame⟩ := hfollows hcall name ⟨hagree, rfl, hm₁⟩ b m' hx₂
    exact ⟨c, n', (bind_of_ok hy₁ _).trans hy₂, hsame⟩

end Splices

namespace Routine

def Counted (r : Routine α) : Prop := ∀ t : Nat, t ∈ Block.mentions r.body → t < r.nextReg

omit [Scalar α] in
@[simp] theorem counted_sync (r : Routine α) : r.sync.Counted := fun _ ht =>
  Nat.lt_of_lt_of_le (Block.lt_regBound ht) (Nat.le_max_right _ _)

/-- A routine in which parts are replaced. -/
theorem Tame.splice {r : Routine α} (h : r.Tame context S)
    (hb : ∀ t : Nat, t ∈ Block.mentions r.body → t < bound) (r' : Routine α)
    (hs : ∀ info, Spliceable context S info ∅ ∅ bound r.body →
      ∃ bound', Splices rel context S info ∅ ∅ bound bound' r.body r'.body) :
    r'.Tame context S ∧ ∀ call call', rel call call' → ∀ m n, Memory.Same context.segments m n →
      Follows (fun _ m' _ n' => Memory.Same context.segments m' n')
        (Block.exec call r.name 0 r.body RegMap.empty) m
          (Block.exec call' r.name 0 r'.body RegMap.empty) n := by
  obtain ⟨info, hi⟩ := h.tame
  obtain ⟨-, -, ⟨info', -, htame⟩, hreads, -, hnodup, hfollows⟩ := hs info
    ⟨hi, h.reads, h.nodup, hb, by simp, by simp⟩
  refine ⟨⟨⟨info', htame⟩, hreads, hnodup⟩, fun call call' hcall m n hmn => ?_⟩
  exact hfollows hcall r.name ⟨fun _ _ => rfl, hmn⟩

end Routine
end StreamStats
