import StreamStats.Proofs.Inlining
import StreamStats.Proofs.Packing
import StreamStats.Proofs.Widening

/-! Registers of inserted code. Three passes put code into a routine under registers that they take
from its counter on: the body of a routine called, the loop for the counts that a width leaves over,
and a bundle of chunks. Such registers are new, and no two insertions share one, where the counter
is past all registers of the body. Widening and packing bring it there first; inlining takes the
counters of caller and callee as they are. -/

namespace StreamStats

variable {α : Type}

/-- A stretch of code and what a pass makes of it: code that has the registers it had, then code
under registers that the pass gives. -/
structure Edit (α : Type) where
  old : Block α
  kept : Block α
  inserted : Block α

namespace Edit

def keep (body : Block α) : Edit α := ⟨body, body, []⟩

def given (e : Edit α) : List Reg := Block.mentions e.inserted

def before (edits : List (Edit α)) : Block α := edits.flatMap Edit.old

def after (edits : List (Edit α)) : Block α := edits.flatMap fun e => e.kept ++ e.inserted

/-- Edits that turn code into other code, one after another. -/
structure Turns (edits : List (Edit α)) (old new : Block α) : Prop where
  before : before edits = old
  after : after edits = new

/-- Insertions are given registers of their own. -/
structure Fresh (edits : List (Edit α)) : Prop where
  /-- When an insertion is made, the code as it then is does not mention its registers. -/
  unmentioned : ∀ front edit back, edits = front ++ edit :: back →
    ∀ r ∈ edit.given, r ∉ Block.mentions (after front ++ before (edit :: back))
  /-- Nor did the code at the start, whatever has become of it since. -/
  original : ∀ edit ∈ edits, ∀ r ∈ edit.given, r ∉ Block.mentions (before edits)
  apart : edits.Pairwise fun edit edit' => edit.given.Disjoint edit'.given

/-- Insertions take registers from `next` on, one after another, and what is kept has those that it
had. -/
inductive Numbered : Reg → List (Edit α) → Prop
  | nil {next : Reg} : Numbered next []
  | cons {next next' : Reg} {edit : Edit α} {edits : List (Edit α)} (le : next ≤ next')
      (kept : ∀ r ∈ Block.mentions edit.kept, r ∈ Block.mentions edit.old)
      (given : ∀ r : Nat, r ∈ edit.given → next ≤ r ∧ r < next') (more : Numbered next' edits) :
      Numbered next (edit :: edits)

variable {next : Reg} {edit : Edit α} {edits front back : List (Edit α)} {body : Block α}

@[simp] theorem before_append (front back : List (Edit α)) :
    before (front ++ back) = before front ++ before back := List.flatMap_append

@[simp] theorem mentions_before_cons : Block.mentions (before (edit :: edits)) =
    Block.mentions edit.old ++ Block.mentions (before edits) := by
  rw [before, List.flatMap_cons, Block.mentions_append]
  rfl

@[simp] theorem mentions_after_cons : Block.mentions (after (edit :: edits)) =
    Block.mentions edit.kept ++ edit.given ++ Block.mentions (after edits) := by
  rw [after, List.flatMap_cons, Block.mentions_append, Block.mentions_append]
  rfl

namespace Numbered

theorem keep (h : Numbered next edits) : Numbered next (.keep body :: edits) :=
  .cons (Nat.le_refl _) (fun _ hr => hr) (fun _ hr => nomatch hr) h

theorem le (h : Numbered next edits) : ∀ edit ∈ edits, ∀ r : Nat, r ∈ edit.given → next ≤ r := by
  induction h with
  | nil => simp
  | cons hle _ given _ ih =>
    refine List.forall_mem_cons.mpr ⟨fun r hr => (given r hr).1, fun edit he r hr => ?_⟩
    exact Nat.le_trans hle (ih edit he r hr)

theorem apart (h : Numbered next edits) :
    edits.Pairwise fun edit edit' => edit.given.Disjoint edit'.given := by
  induction h with
  | nil => exact .nil
  | cons _ _ given more ih =>
    refine List.pairwise_cons.mpr ⟨fun edit he r hr hr' => ?_, ih⟩
    exact absurd (given r hr).2 (Nat.not_lt.mpr (more.le edit he r hr'))

theorem split (h : Numbered next (front ++ back)) : ∃ mid, Numbered mid back ∧ next ≤ mid ∧
    ∀ r : Nat, r ∈ Block.mentions (after front) → r ∈ Block.mentions (before front) ∨ r < mid := by
  induction front generalizing next with
  | nil => exact ⟨next, h, Nat.le_refl _, fun r hr => nomatch hr⟩
  | cons edit front ih =>
    cases h with
    | @cons _ next' _ _ hle kept given more =>
      obtain ⟨mid, hback, hmid, hfront⟩ := ih more
      refine ⟨mid, hback, Nat.le_trans hle hmid, fun r hr => ?_⟩
      rw [mentions_after_cons, List.mem_append, List.mem_append] at hr
      rw [mentions_before_cons, List.mem_append]
      rcases hr with (hr | hr) | hr
      · exact Or.inl (Or.inl (kept r hr))
      · exact Or.inr (Nat.lt_of_lt_of_le (given r hr).2 hmid)
      · exact (hfront r hr).imp_left Or.inr

theorem fresh (h : Numbered next edits) (hb : ∀ r : Nat, r ∈ Block.mentions (before edits) →
    r < next) :
    Fresh edits := by
  refine ⟨?_, fun edit he r hr hr' => ?_, h.apart⟩
  · rintro front edit back rfl r hr hm
    -- `mid` is where the counter stands at the insertion
    obtain ⟨mid, hback, hle, hfront⟩ := h.split
    have hmid : mid ≤ r := hback.le edit List.mem_cons_self r hr
    rw [before_append, Block.mentions_append] at hb
    have hlt : r < mid := by
      rw [Block.mentions_append, List.mem_append] at hm
      rcases hm with hm | hm
      · rcases hfront r hm with hm | hm
        · exact Nat.lt_of_lt_of_le (hb r (List.mem_append_left _ hm)) hle
        · exact hm
      · exact Nat.lt_of_lt_of_le (hb r (List.mem_append_right _ hm)) hle
    exact absurd hlt (Nat.not_lt.mpr hmid)
  · exact absurd (hb r hr') (Nat.not_lt.mpr (h.le edit he r hr))

end Numbered

namespace Turns

variable {old new : Block α}

theorem cons (h : Turns edits old new) (edit : Edit α) :
    Turns (edit :: edits) (edit.old ++ old) (edit.kept ++ edit.inserted ++ new) := by
  obtain ⟨rfl, rfl⟩ := h
  exact ⟨rfl, rfl⟩

theorem keep (h : Turns edits old new) (body : Block α) :
    Turns (.keep body :: edits) (body ++ old) (body ++ new) := by
  have := h.cons (.keep body)
  rwa [Edit.keep, List.append_nil] at this

end Turns
end Edit

open Edit

section Inlining

variable {callee? : Inst α → Option (Routine α)}

def Block.inlineEdits (callee? : Inst α → Option (Routine α)) (next : Reg) :
    List (Inst α) → List (Edit α)
  | [] => []
  | inst :: rest =>
    match callee? inst with
    | some callee =>
      ⟨[inst], [], Block.rename (· + next) callee.body⟩ :: Block.inlineEdits callee?
      (next + callee.nextReg) rest
    | none => .keep [inst] :: Block.inlineEdits callee? next rest

theorem Block.turns_inlineEdits (body : List (Inst α)) :
    ∀ next, Turns (Block.inlineEdits callee? next body) body
      (Block.inline callee? next body).1 := by
  induction body with
  | nil => exact fun _ => ⟨rfl, rfl⟩
  | cons inst rest ih =>
    intro next
    simp only [Block.inlineEdits, Block.inline]
    cases callee? inst with
    | some callee => exact (ih _).cons _
    | none => exact (ih next).keep [inst]

/-- A body put in has the callee's registers, moved up by the counter; the counter then moves up by
the callee's. -/
theorem Block.numbered_inlineEdits {body : List (Inst α)}
    (hc : ∀ inst ∈ body, ∀ callee, callee? inst = some callee → callee.Counted) :
    ∀ next, Numbered next (Block.inlineEdits callee? next body) := by
  induction body with
  | nil => exact fun _ => .nil
  | cons inst rest ih =>
    intro next
    obtain ⟨hinst, hrest⟩ := List.forall_mem_cons.mp hc
    simp only [Block.inlineEdits]
    cases hi : callee? inst with
    | some callee =>
      refine .cons (Nat.le_add_right _ _) (fun _ hr => nomatch hr) (fun r hr => ?_) (ih hrest _)
      rw [given, Block.mentions_rename] at hr
      obtain ⟨t, ht, rfl⟩ := List.mem_map.mp hr
      have hlt := hinst callee hi t ht
      exact ⟨Nat.le_add_left _ _, by omega⟩
    | none => exact (ih hrest next).keep

end Inlining

section Widening

variable {width : Nat}

@[simp] theorem Inst.mentions_widen (w : Nat) (inst : Inst α) :
    (inst.widen w).mentions = inst.mentions := by
  cases inst <;> rfl

@[simp] theorem Inst.mentions_advance (first : Nat) (inst : Inst α) :
    (inst.advance first).mentions = inst.mentions := by
  cases inst <;> rfl

theorem Block.mentions_map {f : Inst α → Inst α} (hf : ∀ inst, (f inst).mentions = inst.mentions)
    (body : Block α) :
    Block.mentions (body.map f) = Block.mentions body := by
  induction body with
  | nil => rfl
  | cons inst rest ih => rw [List.map_cons, Block.mentions, Block.mentions, hf, ih]

/-- What widening does to each instruction of a block: of a loop, the wide one is kept, and the rest
is new. -/
def Block.widenEdits (width : Nat) (next : Reg) : List (Inst α) → List (Edit α)
  | [] => []
  | inst :: rest =>
    match inst.widened? width next with
    | some (loops, next) => ⟨[inst], loops.take 1, loops.drop 1⟩ :: Block.widenEdits width next rest
    | none => .keep [inst] :: Block.widenEdits width next rest

theorem Block.turns_widenEdits (width : Nat) (body : List (Inst α)) :
    ∀ next, Turns (Block.widenEdits width next body) body (Block.widen width next body).1 := by
  induction body with
  | nil => exact fun _ => ⟨rfl, rfl⟩
  | cons inst rest ih =>
    intro next
    simp only [Block.widenEdits, Block.widen]
    cases inst.widened? width next with
    | some made =>
      have := (ih made.2).cons ⟨[inst], made.1.take 1, made.1.drop 1⟩
      rwa [List.take_append_drop] at this
    | none => exact (ih next).keep [inst]

/-- The wide loop mentions what the loop did, the one for the rest a register from the counter on
for each of those. -/
theorem Inst.mentions_widened {inst : Inst α} {next next' : Nat} {loops : Block α}
    (h : inst.widened? width next = some (loops, next')) : next ≤ next' ∧
      (∀ r ∈ Block.mentions (loops.take 1), r ∈ inst.mentions) ∧
      ∀ r : Nat, r ∈ Block.mentions (loops.drop 1) → next ≤ r ∧ r < next' := by
  cases inst with
  | loop trips step parallel body =>
    have hwide : ∀ r ∈ Block.mentions [Inst.loop (trips - trips % width) width true
      (body.map (Inst.widen width))], r ∈ (Inst.loop trips step parallel body).mentions := by
      intro r hr
      simpa only [Block.mentions, Inst.mentions, Block.mentions_map (Inst.mentions_widen width),
        List.append_nil] using hr
    simp only [Inst.widened?] at h
    split at h
    · split at h
      · cases h
        refine ⟨Nat.le_add_right _ _, hwide, fun r hr => ?_⟩
        simp only [List.drop_succ_cons, List.drop_zero, Block.mentions, Inst.mentions,
          List.append_nil, Block.mentions_map (Inst.mentions_advance _), Block.mentions_rename]
          at hr
        obtain ⟨t, ht, rfl⟩ := List.mem_map.mp hr
        exact Block.renumber_lt ht
      · cases h
        exact ⟨Nat.le_refl _, hwide, fun r hr => (List.not_mem_nil hr).elim⟩
    · cases h
  | load _ _ _ => cases h
  | store _ _ _ => cases h
  | binary _ _ _ _ => cases h
  | call _ => cases h

theorem Block.numbered_widenEdits (body : List (Inst α)) :
    ∀ next, Numbered next (Block.widenEdits width next body) := by
  induction body with
  | nil => exact fun _ => .nil
  | cons inst rest ih =>
    intro next
    simp only [Block.widenEdits]
    cases hi : inst.widened? width next with
    | some made =>
      obtain ⟨hle, hkept, hgiven⟩ := Inst.mentions_widened hi
      refine .cons hle (fun r hr => ?_) hgiven (ih made.2)
      rw [Block.mentions, Block.mentions, List.append_nil]
      exact hkept r hr
    | none => exact (ih next).keep

end Widening

namespace Pack

variable [Scalar α] {width : Nat}

def edits (width : Nat) : Nat → Reg → List (Item α) → List (Edit α)
  | _, _, [] => []
  | skip + 1, next, _ :: items => edits width skip next items
  | 0, next, item :: items =>
    match bundle? width next (item :: items) with
    | some (bundle, count) =>
      ⟨((item :: items).take width).flatMap Item.body, [], bundle⟩ :: edits width (width - 1)
      (next + count) items
    | none => .keep item.body :: edits width 0 next items

theorem turns_edits (hw : width ≠ 0) (items : List (Item α)) : ∀ skip next,
    Turns (edits width skip next items) ((items.drop skip).flatMap Item.body)
      (pack width skip next items).1 := by
  induction items with
  | nil =>
    intro skip next
    rw [List.drop_nil]
    cases skip <;> exact ⟨rfl, rfl⟩
  | cons item items ih =>
    intro skip next
    cases skip with
    | succ skip => exact ih skip next
    | zero =>
      simp only [edits, pack, List.drop_zero]
      cases bundle? width next (item :: items) with
      | none => exact (ih 0 next).keep item.body
      | some made =>
        have := (ih (width - 1) (next + made.2)).cons
          ⟨((item :: items).take width).flatMap Item.body, [], made.1⟩
        rwa [← drop_cons_of_ne_zero hw item items, ← List.flatMap_append, List.take_append_drop]
          at this

/-- A bundle mentions the registers that it sets, one for each piece of a chunk but the last. -/
theorem mentions_bundle {uses : RegMap Nat} {items : List (Item α)} {next : Nat} {bundle : Block α}
    {count : Nat} (hgood : ∀ item ∈ items, item.Good uses)
    (h : bundle? width next items = some (bundle, count)) :
    ∀ r : Nat, r ∈ Block.mentions bundle → next ≤ r ∧ r < next + count := by
  obtain ⟨-, steps, first, chunks, hchunks, hfirst, hsteps, hlen, -, -, rfl, rfl⟩ :=
    bundle?_eq_some hgood h
  obtain ⟨item, -, hchunk, -⟩ :=
    (forall₂_exists_of_mem hchunks).2 first (List.mem_of_mem_head? hfirst)
  have hscoped : Block.Scoped true ∅ (emit next width 0 first steps) := by
    rw [emit_eq_widen hsteps.1]
    exact Inst.scoped_widen width _ (hchunk.scoped_emit (by simp))
  intro r hr
  have ht := (Block.mentions_of_scoped hscoped r hr).resolve_left (by simp)
  have htargets := hchunk.targets_emit next width hlen
  rw [List.length_nil, Nat.add_zero] at htargets
  rw [htargets, List.mem_range'_1] at ht
  have := hchunk.length_eq
  omega

theorem numbered_edits {uses : RegMap Nat} (items : List (Item α)) : ∀ skip next,
    (∀ item ∈ items, item.Good uses) → Numbered next (edits width skip next items) := by
  induction items with
  | nil => intro skip _ _; cases skip <;> exact .nil
  | cons item items ih =>
    intro skip next hgood
    have hrest : ∀ item ∈ items, item.Good uses := fun i hi => hgood i (List.mem_cons_of_mem _ hi)
    cases skip with
    | succ skip => exact ih skip next hrest
    | zero =>
      simp only [edits]
      cases hb : bundle? width next (item :: items) with
      | none => exact (ih 0 next hrest).keep
      | some made =>
        exact .cons (Nat.le_add_right _ _) (fun _ hr => nomatch hr) (mentions_bundle hgood hb)
          (ih (width - 1) (next + made.2) hrest)

end Pack

namespace Routine

variable {r : Routine α}

def inlineEdits (p : Program α) (limit : Option Nat) (r : Routine α) : List (Edit α) :=
  Block.inlineEdits (Inst.inlined? p limit r.name) r.nextReg r.body

def widenEdits (r : Routine α) (width : Nat) : List (Edit α) :=
  if width < 2 then [.keep r.body] else Block.widenEdits width r.sync.nextReg r.body

def packEdits [Scalar α] (r : Routine α) (width : Nat) : List (Edit α) :=
  if width < 2 then [.keep r.body]
  else Pack.edits width 0 r.sync.nextReg (Pack.split (RegMap.tally (Block.uses r.body)) [] r.body)

@[simp] theorem turns_keep (body : Block α) : Turns [.keep body] body body :=
  ⟨List.flatMap_singleton _ _, by simp [after, Edit.keep]⟩

@[simp] theorem fresh_keep (body : Block α) : Fresh [.keep body] :=
  (Numbered.keep (.nil : Numbered (Block.regBound body) [])).fresh fun r hr =>
    Block.lt_regBound (by simpa [before, Edit.keep] using hr)

theorem inlineEdits_fresh {p : Program α} {limit : Option Nat} (hr : r.Counted)
    (hc : ∀ inst ∈ r.body, ∀ callee, inst.inlined? p limit r.name = some callee → callee.Counted) :
    Fresh (r.inlineEdits p limit) := by
  refine (Block.numbered_inlineEdits hc r.nextReg).fresh fun t ht => hr t ?_
  rwa [(Block.turns_inlineEdits r.body r.nextReg).before] at ht

theorem widenEdits_turns (r : Routine α) (width : Nat) :
    Turns (r.widenEdits width) r.body (r.widenLoops width).1.body ∧ Fresh (r.widenEdits width) := by
  unfold widenEdits widenLoops
  split
  · exact ⟨turns_keep r.body, fresh_keep r.body⟩
  · have hturns := Block.turns_widenEdits width r.body r.sync.nextReg
    refine ⟨hturns, (Block.numbered_widenEdits r.body _).fresh fun t ht => r.counted_sync t ?_⟩
    rwa [hturns.before] at ht

theorem packEdits_turns [Scalar α] (r : Routine α) (width : Nat) :
    Turns (r.packEdits width) r.body (r.packChunks width).1.body ∧ Fresh (r.packEdits width) := by
  unfold packEdits packChunks
  split
  · exact ⟨turns_keep r.body, fresh_keep r.body⟩
  · rename_i hw
    have hw0 : width ≠ 0 := by omega
    have hturns := Pack.turns_edits hw0 (Pack.split (RegMap.tally (Block.uses r.body)) [] r.body) 0
      r.sync.nextReg
    rw [List.drop_zero, Pack.flatMap_split] at hturns
    refine ⟨hturns, (Pack.numbered_edits _ 0 _ (Pack.good_split _ r.body [] (by simp))).fresh
      fun t ht =>
      r.counted_sync t ?_⟩
    rwa [hturns.before] at ht

/-- What widening and packing put into a routine is under fresh registers, however the routine was
made. What inlining puts in is if the counters of the routine and of those that are put in are past
their registers. -/
theorem insertions_fresh [Scalar α] (p : Program α) (limit : Option Nat) (width : Nat)
    (r : Routine α) :
    (Turns (r.widenEdits width) r.body (r.widenLoops width).1.body ∧ Fresh (r.widenEdits width)) ∧
    (Turns (r.packEdits width) r.body (r.packChunks width).1.body ∧ Fresh (r.packEdits width)) ∧
    Turns (r.inlineEdits p limit) r.body (r.inlineCalls p limit).body ∧
    (r.Counted →
      (∀ inst ∈ r.body, ∀ callee, inst.inlined? p limit r.name = some callee → callee.Counted) →
      Fresh (r.inlineEdits p limit)) :=
  ⟨r.widenEdits_turns width, r.packEdits_turns width, Block.turns_inlineEdits r.body r.nextReg,
    inlineEdits_fresh⟩

/-- Calls a routine twice, goes on with a loop that two lanes leave one count of, and ends in a pair
of chunks. -/
def relaying : Routine Float := .ofBody "relay" .external [.call "shift", .call "shift",
  .loop 3 1 true [.load 0 ⟨0, 1, 1⟩ 1, .store ⟨1, 1, 1⟩ (.reg 0) 1],
  .load 1 (.fixed 0 4) 1, .store (.fixed 1 4) (.reg 1) 1, .load 2 (.fixed 0 5) 1,
  .store (.fixed 1 5) (.reg 2) 1]

def relayed : Program Float where
  name := "relayed"
  segments := #[.zeros "input" .input 6, .zeros "output" .output 6]
  routines := [.ofBody "shift" .internal [.load 0 (.fixed 0 0) 1, .store (.fixed 1 0) (.reg 0) 1],
    relaying]

theorem insertions_fresh_relaying :
    relayed.check = .ok () ∧ relaying.Counted ∧
    (∀ inst ∈ relaying.body, ∀ callee, inst.inlined? relayed (some 2) "relay" = some callee →
      callee.Counted) ∧
    (Fresh (relaying.widenEdits 2) ∧ Fresh (relaying.packEdits 2) ∧
      Fresh (relaying.inlineEdits relayed (some 2))) ∧
    (relaying.widenEdits 2).flatMap given = [3, 3] ∧ (relaying.packEdits 2).flatMap given = [3, 3] ∧
    (relaying.inlineEdits relayed (some 2)).flatMap given = [3, 3, 4, 4] := by
  have hcounted : relaying.Counted := Routine.counted_sync _
  have hcallees : ∀ inst ∈ relaying.body, ∀ callee,
      inst.inlined? relayed (some 2) "relay" = some callee →
      callee.Counted := by
    intro inst _ callee hi
    obtain ⟨name, -, hfind⟩ := Program.routine?_of_inlined? (by decide) inst callee hi
    have hmem := Program.mem_of_routine? hfind
    simp only [relayed, List.mem_cons, List.not_mem_nil, or_false] at hmem
    rcases hmem with rfl | rfl
    · exact Routine.counted_sync _
    · exact hcounted
  obtain ⟨⟨-, hwiden⟩, ⟨-, hpack⟩, -, hinline⟩ := insertions_fresh relayed (some 2) 2 relaying
  exact ⟨by decide +kernel, hcounted, hcallees, ⟨hwiden, hpack, hinline hcounted hcallees⟩,
    by decide +kernel, by decide +kernel, by decide +kernel⟩

/-- Calls a routine between the loading of a register and its storing. It is made by adding
instructions one by one, which leaves the counter where it was. -/
def crossing : Routine Float :=
  Routine.push (.push (.push ⟨"cross", .external, .default, 0, []⟩ (.load 0 (.fixed 0 0) 1))
    (.call "second")) (.store (.fixed 1 0) (.reg 0) 1)

def crossed : Program Float where
  name := "crossed"
  segments := #[.zeros "input" .input 2, .zeros "output" .output 2]
  routines := [.ofBody "second" .internal [.load 0 (.fixed 0 1) 1, .store (.fixed 1 1) (.reg 0) 1],
    crossing]

/-- Inlining gives the body that it puts in a register that the routine has; so it sets the register
twice, and what is stored behind the body is not what was loaded before. -/
theorem not_insertions_fresh :
    crossed.check = .ok () ∧ ¬ Fresh (crossing.inlineEdits crossed (some 2)) ∧
    (crossed.inlineCalls (some 2)).1.check = .error ⟨"cross", .redefined 0⟩ ∧
    ((Machine.ofProgram crossed).run "cross" [1, 2]).1 = .ok [1, 2] ∧
    ((Machine.ofProgram (crossed.inlineCalls (some 2)).1).run "cross" [1, 2]).1 = .ok [2, 2] := by
  refine ⟨by decide +kernel, fun h => ?_, by decide +kernel, by decide +kernel, by decide +kernel⟩
  exact h.original _ (.tail _ (.head _)) 0 (by decide) (by decide)

end Routine
end StreamStats
