import StreamStats.Proofs.Optimized
import StreamStats.Proofs.Widened

/-! Packing chunks changes nothing that a caller sees, in any code that the checker accepts, as long
as no numbers are taken for equal that are not. A bundle and its chunks always come to the same end;
the registers of the chunks are gone and those of the bundle new, and behind it neither are read. -/

namespace StreamStats

open Exec Check Pack

variable {α : Type}

/-- The numbers in the instructions of a routine, but for those in loops. -/
def Routine.immediates (r : Routine α) : Set α :=
  {v | ∃ inst ∈ r.body, inst.iterations? = none ∧ Operand.imm v ∈ inst.operands}

theorem Check.reaches_of_words {segments : Array (Segment α)} {a : Address} {writes : Bool}
    (h : access segments none a 1 writes = .ok ()) (hw : a.InWords) :
    Reaches segments none a 1 writes := by
  refine reaches_of_access h fun n hn => ?_
  obtain rfl : n = 0 := by simpa [span] using hn
  rw [Address.index_eq_wrap, Address.position]
  simpa using hw.1

namespace Pack

variable {set : List Reg} {insts : List (Inst α)} {ps : List (Piece α)} {context : Context α}
    {lanes : Reg → Nat}

theorem Chunk.plain [Scalar α] (h : Chunk set insts ps) :
    Block.Each (fun shape inst => inst.Admitted context lanes shape) none insts →
    Block.Each Inst.InWords none insts → ∀ inst ∈ insts, inst.Plain context Set.univ
      (fun _ => .single) none := by
  have hlanes : ∀ x : Operand α, x.lanes (fun _ => Info.single) = 1 := fun x => by cases x <;> rfl
  induction h with
  | store _ _ =>
    intro ha hw
    simp only [List.mem_singleton, forall_eq]
    exact ⟨reaches_of_words ha.1.1 hw.1, Or.inl (hlanes _), Set.subset_univ _⟩
  | load _ _ ih =>
    intro ha hw
    exact List.forall_mem_cons.mpr
      ⟨⟨reaches_of_words ha.1.1 hw.1, Or.inl rfl, fun _ => rfl, fun _ _ => trivial⟩, ih ha.2 hw.2⟩
  | binary _ _ _ ih =>
    intro ha hw
    refine List.forall_mem_cons.mpr ⟨⟨⟨Or.inl ((hlanes _).trans (hlanes _).symm), Or.inl ?_⟩,
      ⟨Set.subset_univ _, Set.subset_univ _⟩, ⟨Set.subset_univ _, Set.subset_univ _⟩, fun _ _ _ _ =>
        trivial⟩, ih ha.2 hw.2⟩
    rw [hlanes, hlanes]
    rfl

theorem carries_single (next : Nat) {w : Nat} (hw : w ≠ 0) (rs : List Reg) :
    Carries (fun _ => (Info.single : Info α)) (fun _ => ⟨w, Set.univ, hw⟩) next w rs :=
  fun _ _ _ => ⟨rfl, rfl⟩

end Pack

section Packs

variable [Scalar α] {context : Context α} {lanes : Reg → Nat} {V W : Set Reg} {bound w : Nat}
  {first part rest : Block α} {call call' : String → Exec α Unit} {name : String} {f g : Frame α}
  {m : Memory α}

namespace Packable

theorem mirrors_keep (h : Packable context lanes V W bound (first ++ rest))
    (hcall : CallsMirror (.exact context.segments) call call')
    (hfg : ∀ r ∈ V, r ∈ Block.uses (first ++ rest) → g.get? r = f.get? r)
    (hm : m.Fits context.segments) :
    Mirrors (.exact context.segments) (fun f' g' => ∀ r ∈ Block.define first V,
      r ∈ Block.uses rest → g'.get? r = f'.get? r) (Block.exec call name 0 first f m)
        (Block.exec call' name 0 first g m) := by
  let U : Set Reg := {r | r ∈ V ∧ r ∈ Block.uses (first ++ rest)}
  have hscoped : Block.Scoped false U first :=
    (Block.scoped_append.mp h.reads).1.of_uses fun _ hV hu =>
      ⟨hV, Block.mem_uses_append.mpr (Or.inl hu)⟩
  have hmirrors : Mirrors (.exact context.segments) (Frame.Renames id (Block.define first U))
      (Block.exec call name 0 first f m) (Block.exec call' name 0 (Block.rename id first) g m) :=
    Block.mirrors_rename hcall (fun _ => rfl) ((Block.each_append.mp h.admitted).1.imp fun _ _ hi =>
      hi.keeps_exact) hscoped (fun _ _ _ _ he => he) (fun r hr => hfg r hr.1 hr.2) hm
  rw [Block.rename_id] at hmirrors
  refine hmirrors.imp fun f' g' hfg' r hr hu => hfg' r (Block.mem_define.mpr ?_)
  exact (Block.mem_define.mp hr).imp_left fun hV => ⟨hV, Block.mem_uses_append.mpr (Or.inr hu)⟩

end Packable

namespace Pack

variable {N : Set α} {uses : RegMap Nat} {items : List (Item α)}

theorem mirrors_bundle (call call' : String → Exec α Unit) (name : String) (hN : Distinct N)
    (hw : w ≠ 0) {code : Block α} {count : Nat} (hgood : ∀ item ∈ items, item.Good uses)
    (hb : bundle? w bound items = some (code, count))
    (hdead : ∀ r ∈ Block.targets ((items.take w).map Item.body).flatten,
      r ∉ Block.uses ((items.drop w).flatMap Item.body))
    (h : Packable context lanes V W bound (items.flatMap Item.body))
    (hwords : Block.Each Inst.InWords none (items.flatMap Item.body))
    (hnumbers : ∀ inst ∈ items.flatMap Item.body, inst.iterations? = none →
      ∀ v, Operand.imm v ∈ inst.operands → v ∈ N)
    (hfg : ∀ r ∈ V, r ∈ Block.uses (items.flatMap Item.body) → g.get? r = f.get? r)
    (hm : m.Fits context.segments) :
    Mirrors (.exact context.segments)
      (fun f' g' => ∀ r ∈ Block.define ((items.take w).map Item.body).flatten V,
        r ∈ Block.uses ((items.drop w).flatMap Item.body) → g'.get? r = f'.get? r)
      (Block.exec call name 0 ((items.take w).map Item.body).flatten f m)
        (Block.exec call' name 0 code g m) := by
  have hmem : ∀ item ∈ items, item.body ⊆ items.flatMap Item.body := fun item hi inst hinst =>
    List.mem_flatMap.mpr ⟨item, hi, hinst⟩
  have hplain : ∀ item ∈ items, ∀ ps, Chunk [] (Item.body item) ps →
      (∀ inst ∈ item.body, inst.Plain context Set.univ (fun _ => .single) none) ∧
      ∀ p ∈ ps, p.In N := by
    intro item hi ps hc
    have hadmitted : Block.Each
        (fun shape inst => inst.Admitted context lanes shape) none item.body :=
      Block.each_iff.mpr fun inst hinst => Block.each_iff.mp h.admitted inst (hmem item hi hinst)
    have hwords : Block.Each Inst.InWords none item.body :=
      Block.each_iff.mpr fun inst hinst => Block.each_iff.mp hwords inst (hmem item hi hinst)
    exact ⟨hc.plain hadmitted hwords, hc.pieces_in fun inst hinst =>
      hnumbers inst (hmem item hi hinst) (hc.flat inst hinst)⟩
  obtain ⟨hle, steps, head, chunks, hbundle, rfl, -⟩ :=
    bundle_of_bundle? hN hgood hplain (nodup_targets_body h.nodup) hb
  obtain ⟨f', g', m', hx, hy, hm'⟩ := hbundle.ends (by simpa using hle) hw
    (fun _ _ _ => carries_single bound hw _) call call' name f g m hm
  rw [hx, hy]
  refine .ok (fun r hr hu => ?_) hm'
  -- what is read behind, neither the chunks set nor the bundle
  have hold : r ∉ Block.targets ((items.take w).map Item.body).flatten := fun ht => hdead r ht hu
  have hu : r ∈ Block.uses (items.flatMap Item.body) := by
    rw [flatMap_take_drop w items, Block.uses_append]
    exact List.mem_append_right _ hu
  have hnew : r ∉ Block.targets (emit bound w 0 head steps) := by
    rw [hbundle.targets_emit, List.mem_range'_1]
    have := h.mentions r (Block.mem_mentions_of_operand (Block.mem_uses.mp hu))
    omega
  rw [Block.exec_frame f' m' hx r hold, Block.exec_frame g' m' hy r hnew]
  exact hfg r ((Block.mem_or_mem_targets hr).resolve_right hold) hu

/-- Packed code does alike, where the frames agree on what is read. -/
theorem mirrors_pack (name : String) (hN : Distinct N) (hw : w ≠ 0)
    (hcall : CallsMirror (.exact context.segments) call call') (body : Block α) (next : Reg) :
    Packable context lanes V W next body → Block.Each Inst.InWords none body →
      (∀ inst ∈ body, inst.iterations? = none → ∀ v, Operand.imm v ∈ inst.operands → v ∈ N) →
      (∀ r ∈ V, r ∈ Block.uses body → g.get? r = f.get? r) → m.Fits context.segments →
      Mirrors (.exact context.segments) (fun _ _ => True) (Block.exec call name 0 body f m)
        (Block.exec call' name 0 (pack w 0 next (split (RegMap.tally (Block.uses body)) [] body)).1
          g m) := by
  revert V W f g m
  refine pack_split_induction (motive := fun next old new _ =>
    ∀ {V W : Set Reg} {f g : Frame α} {m : Memory α}, Packable context lanes V W next old →
    Block.Each Inst.InWords none old →
      (∀ inst ∈ old, inst.iterations? = none → ∀ v, Operand.imm v ∈ inst.operands → v ∈ N) →
      (∀ r ∈ V, r ∈ Block.uses old → g.get? r = f.get? r) → m.Fits context.segments →
      Mirrors (.exact context.segments) (fun _ _ => True) (Block.exec call name 0 old f m)
        (Block.exec call' name 0 new g m)) ?_ ?_ ?_ hw rfl next
  · exact fun _ _ _ _ _ _ _ _ _ _ hm => .ok trivial hm
  · intro next next' first rest new ih V W f g m h hwords hnumbers hfg hm
    rw [Block.exec_append, Block.exec_append]
    exact (h.mirrors_keep hcall hfg hm).bind fun f' g' m' hfg' hm' =>
      ih (h.behind 0 fun _ hr _ => hr) (Block.each_append.mp hwords).2
        (fun inst hi => hnumbers inst (List.mem_append_right _ hi)) hfg' hm'
  · intro next next' count items code new hgood hb hdead ih V W f g m h hwords hnumbers hfg hm
    rw [Block.exec_append, Block.exec_append]
    have hsplit := flatMap_take_drop w items
    have hmirrors := mirrors_bundle call call' name hN hw hgood hb hdead (by rwa [hsplit])
      (by rwa [hsplit]) (by rwa [hsplit]) (by rwa [hsplit]) hm
    have hbehind : Packable context lanes _ (Block.define code W) (next + count)
        ((items.drop w).flatMap Item.body) :=
      h.behind count fun r hr hu =>
        absurd hu (hdead r ((Block.mem_or_mem_targets hr).resolve_left (by simp)))
    exact hmirrors.bind fun f' g' m' hfg' hm' => ih hbehind (Block.each_append.mp hwords).2
      (fun inst hi => hnumbers inst (List.mem_append_right _ hi)) hfg' hm'

end Pack

/-- A routine that is accepted does alike when its chunks are packed, if its numbers are told
apart. -/
theorem Routine.Accepted.mirrors_packChunks {r : Routine α} (h : r.Accepted context)
    (hwords : Block.Each Inst.InWords none r.body) (w : Nat)
    (hdistinct : 2 ≤ w → Distinct r.immediates) :
    r.Mirrors (.exact context.segments) (r.packChunks w).1 := by
  unfold Routine.packChunks
  split
  · exact h.mirrors_self
  · rename_i hw
    obtain ⟨lanes, hl⟩ := h.admitted
    have hpackable : Packable context lanes ∅ ∅ r.sync.nextReg r.body :=
      ⟨hl, h.reads, h.nodup, r.counted_sync, by simp⟩
    exact ⟨rfl, fun call call' hcall m hm =>
      mirrors_pack r.name (hdistinct (by omega)) (by omega) hcall r.body r.sync.nextReg hpackable
      hwords (fun inst hi hflat v hv => ⟨inst, hi, hflat, hv⟩) (by simp) hm⟩

namespace Program

/-- The chunks of one routine of a checked program can be packed, if its numbers are told apart:
whatever is done with a machine, it shows the same. -/
theorem packedAt_shows {p : Program α} (h : p.check = .ok ()) (hwords : p.InWords) (index w : Nat)
    (hdistinct : ∀ r, p.routines[index]? = some r → 2 ≤ w → Distinct r.immediates)
    (uses : List (Machine.Use α)) :
    (Machine.ofProgram (p.rewriteAt index fun r => (r.packChunks w).1)).shows uses =
      (Machine.ofProgram p).shows uses := by
  have haccepted := (check_eq_ok_iff_accepted.mp h).2
  refine Machine.shows_rewriteAt haccepted (fun r hr => ?_) uses
  have hmem := List.mem_of_getElem? hr
  exact (haccepted r hmem).mirrors_packChunks (hwords r hmem) w (hdistinct r hr)

end Program
end Packs

namespace Program

/-- For floating-point numbers, packing shows in nothing unless both zeros stand in the routine. -/
theorem packedAt_shows_float {p : Program Float} (h : p.check = .ok ()) (hwords : p.InWords)
    (index w : Nat) (hzeros : ∀ r, p.routines[index]? = some r → 2 ≤ w →
      ¬((0 : Float) ∈ r.immediates ∧ (-0 : Float) ∈ r.immediates))
    (uses : List (Machine.Use Float)) :
    (Machine.ofProgram (p.rewriteAt index fun r => (r.packChunks w).1)).shows uses =
      (Machine.ofProgram p).shows uses :=
  packedAt_shows h hwords index w (fun r hr hw => Pack.distinct_iff.mpr (hzeros r hr hw)) uses

/-- Scales two values by one factor and adds a number to each. -/
def striding : Program Float where
  name := "striding"
  segments := #[.zeros "input" .input 2, ⟨"factor", .constant, #[3]⟩, .zeros "output" .output 2]
  routines := [.ofBody "main" .external [
    .load 0 (.fixed 0 0) 1, .load 1 (.fixed 1 0) 1, .binary 2 .mul (.reg 0) (.reg 1),
    .binary 3 .add (.reg 2) (.imm 5), .store (.fixed 2 0) (.reg 3) 1,
    .load 4 (.fixed 0 1) 1, .load 5 (.fixed 1 0) 1, .binary 6 .mul (.reg 4) (.reg 5),
    .binary 7 .add (.reg 6) (.imm 5), .store (.fixed 2 1) (.reg 7) 1]]

theorem packedAt_shows_float_striding :
    striding.check = .ok () ∧ striding.InWords ∧
      (∀ r, striding.routines[0]? = some r → 2 ≤ 2 →
        ¬((0 : Float) ∈ r.immediates ∧ (-0 : Float) ∈ r.immediates)) ∧
      striding.size = 10 ∧ (striding.rewriteAt 0 fun r => (r.packChunks 2).1).size = 5 ∧
      ((Machine.ofProgram striding).run "main" [1, 2]).1 = .ok [8, 11] ∧
      ∀ uses : List (Machine.Use Float),
        (Machine.ofProgram (striding.rewriteAt 0 fun r => (r.packChunks 2).1)).shows uses =
          (Machine.ofProgram striding).shows uses := by
  have hc : striding.check = .ok () := by decide +kernel
  have hwords : striding.InWords := by decide +kernel
  have hzeros : ∀ r, striding.routines[0]? = some r → 2 ≤ 2 →
      ¬((0 : Float) ∈ r.immediates ∧ (-0 : Float) ∈ r.immediates) := by
    rintro r hr - ⟨⟨inst, hi, -, hv⟩, -⟩
    obtain rfl := Option.some.inj hr
    simp only [Routine.ofBody, Routine.sync, List.mem_cons, List.not_mem_nil, or_false] at hi
    obtain rfl | rfl | rfl | rfl | rfl | rfl | rfl | rfl | rfl | rfl := hi <;> simp [Inst.operands]
      at hv
    all_goals exact absurd hv (by decide)
  exact ⟨hc, hwords, hzeros, by decide +kernel, by decide +kernel, by decide +kernel,
    packedAt_shows_float hc hwords 0 2 hzeros⟩

def signing : Program Float where
  name := "signing"
  segments := #[.zeros "input" .input 1, .zeros "output" .output 2]
  routines := [.ofBody "main" .external [.store (.fixed 1 0) (.imm 0) 1,
    .store (.fixed 1 1) (.imm (-0)) 1]]

/-- Zeros of different signs compare equal, so both become the one that comes first. -/
theorem not_packedAt_shows :
    signing.check = .ok () ∧ ((Machine.ofProgram signing).run "main" [1]).1 = .ok [0, -0] ∧
      ((Machine.ofProgram (signing.rewriteAt 0 fun r => (r.packChunks 2).1)).run "main" [1]).1 =
        .ok [0, 0] ∧ ([0, 0] : List Float) ≠ [0, -0] := by
  decide +kernel

end Program
end StreamStats
