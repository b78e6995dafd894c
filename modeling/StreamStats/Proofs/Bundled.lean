import StreamStats.Proofs.Accepted
import StreamStats.Proofs.Packing

/-! Packed code that the checker accepts. A bundle accesses memory where the first and the last of
its chunks do, which is all that the checker looks at; its registers are its own and have a lane for
each chunk; and what the chunks set, nothing else reads. Whether the numbers of the chunks are equal
does not matter for that. -/

namespace StreamStats

open Check Pack

variable {α : Type}

namespace Check

variable {segments : Array (Segment α)} {writes : Bool}

theorem access_row {f a : Address} {s : Int} {w : Nat}
    (hf : access segments none f 1 writes = .ok ()) (ha : access segments none a 1 writes = .ok ())
    (segment : a.segment = f.segment) (offset : a.offset = f.offset + (w - 1 : Nat) * s)
    (hw : w ≠ 0) (hs : s = 0 ∨ s = 1) :
    access segments none { f with stride := s } (if s = 1 then w else 1) writes = .ok () := by
  obtain ⟨seg, hseg, hwrites, -, -, hf⟩ := access_eq_ok_iff.mp hf
  obtain ⟨seg', hseg', -, -, -, ha⟩ := access_eq_ok_iff.mp ha
  rw [segment, hseg] at hseg'
  cases hseg'
  obtain ⟨hfirst, -⟩ := hf 0 rfl
  obtain ⟨hlast, -⟩ := ha 0 rfl
  refine access_eq_ok_iff.mpr
    ⟨seg, hseg, hwrites, by split <;> omega, by simp, fun last hspan => ?_⟩
  rcases hs with rfl | rfl
  · obtain rfl : last = 0 := by simpa [span] using hspan.symm
    simpa [EndsInside, Address.index] using hfirst
  · obtain rfl : last = w - 1 := by simp only [span, if_true] at hspan; omega
    refine ⟨by simpa [Address.index] using hfirst, ?_⟩
    simpa [Address.index, offset] using hlast

end Check

variable {context : Context α} {lanes : Reg → Nat}

namespace Pack

variable {set : List Reg} {insts : List (Inst α)} {ps : List (Piece α)} {next w : Nat}

theorem width_operand {x : Operand α} {s : Slot α} (h : slot? set x = some s)
    (hl : ∀ r : Nat, next ≤ r → lanes r = w) :
    (s.operand next).width lanes = 1 ∨ (s.operand next).width lanes = w := by
  rcases slot?_eq_some h with ⟨v, -, rfl⟩ | ⟨r, p, -, rfl, -⟩
  · exact Or.inl rfl
  · exact Or.inr (hl (next + p) (Nat.le_add_right _ _))

theorem Chunk.admitted_emit [Scalar α] (h : Chunk set insts ps) (hw : w ≠ 0)
    (hl : ∀ r : Nat, next ≤ r → lanes r = w) :
    ∀ {steps : List Int} {set' : List Reg} {insts' : List (Inst α)} {ps' : List (Piece α)},
    Chunk set' insts' ps' →
      fits ps steps ps' (w - 1) = true → Steps steps → steps.length = (addresses ps).length →
      Block.Each (fun shape inst => inst.Admitted context lanes shape) none insts →
      Block.Each (fun shape inst => inst.Admitted context lanes shape) none insts' →
      Block.Each (fun shape inst => inst.Admitted context lanes shape) none
        (emit next w set.length ps steps) := by
  induction h with
  | @store set dst x s stride slot =>
    intro steps set' insts' ps' h' hfits hsteps hlen hp hp'
    obtain rfl := hsteps.eq_singleton hlen
    have halike := fun p ps (he : ps' = p :: ps) => alike_of_fits_cons (he ▸ hfits)
    cases h' with
    | store _ _ =>
      obtain ⟨-, ⟨hseg, hoff⟩, -⟩ := (fits_cons_of_some rfl rfl).mp hfits
      have hrow := access_row hp.1.1 hp'.1.1 hseg hoff hw (Or.inr rfl)
      exact ⟨⟨hrow, width_operand slot hl⟩, trivial⟩
    | load _ _ => cases halike _ _ rfl
    | binary _ _ _ => cases halike _ _ rfl
  | @load set dst src insts ps stride more ih =>
    intro steps set' insts' ps' h' hfits hsteps hlen hp hp'
    have halike := fun p ps (he : ps' = p :: ps) => alike_of_fits_cons (he ▸ hfits)
    cases steps with
    | nil => cases hlen
    | cons s steps =>
      have hlen : steps.length = (addresses ps).length := by
        simpa [addresses, Piece.address?] using hlen
      have hs : s = 0 ∨ s = 1 := hsteps.1 s List.mem_cons_self
      cases h' with
      | load _ more' =>
        obtain ⟨-, ⟨hseg, hoff⟩, hfits⟩ := (fits_cons_of_some rfl rfl).mp hfits
        refine ⟨⟨access_row hp.1.1 hp'.1.1 hseg hoff hw hs, ?_⟩,
          ih more' hfits (more.steps_tail hlen hsteps) hlen hp.2 hp'.2⟩
        rw [hl _ (Nat.le_add_right _ _)]
        split
        · exact Or.inr rfl
        · exact Or.inl rfl
      | store _ _ => cases halike _ _ rfl
      | binary _ _ _ => cases halike _ _ rfl
  | @binary set dst op x y l r insts ps left right more ih =>
    intro steps set' insts' ps' h' hfits hsteps hlen hp hp'
    have halike := fun p ps (he : ps' = p :: ps) => alike_of_fits_cons (he ▸ hfits)
    cases h' with
    | binary _ _ more' =>
      obtain ⟨-, hfits⟩ := (fits_cons_of_none rfl rfl).mp hfits
      refine ⟨?_, ih more' hfits hsteps hlen hp.2 hp'.2⟩
      have hx := width_operand left hl
      have hy := width_operand right hl
      simp only [Inst.Each, Inst.Admitted, hl _ (Nat.le_add_right _ _)]
      omega
    | load _ _ => cases halike _ _ rfl
    | store _ _ => cases halike _ _ rfl

end Pack

/-- Code in which chunks are to be packed, where the checker accepts it behind code of which `V` is
the scope and `W` that of what took its place. Its registers are below `bound`. -/
structure Packable (context : Context α) (lanes : Reg → Nat) (V W : Set Reg) (bound : Nat)
    (old : Block α) : Prop where
  admitted : Block.Each (fun shape inst => inst.Admitted context lanes shape) none old
  reads : Block.Scoped false V old
  nodup : (Block.targets old).Nodup
  mentions : ∀ r : Nat, r ∈ Block.mentions old → r < bound
  /-- What is still read is in the new scope, too. -/
  live : ∀ r ∈ V, r ∈ Block.uses old → r ∈ W

structure Packs (context : Context α) (lanes : Reg → Nat) (W : Set Reg) (bound : Nat)
    (old new : Block α) : Prop where
  admitted : Block.Each (fun shape inst => inst.Admitted context lanes shape) none new
  reads : Block.Scoped false W new
  nodup : (Block.targets new).Nodup
  targets : ∀ r : Nat, r ∈ Block.targets new → r ∈ Block.targets old ∨ bound ≤ r

section Packs

variable {V W : Set Reg} {bound count : Nat} {first part part' rest new : Block α}

@[simp] theorem Packs.nil : Packs context lanes W bound [] [] :=
  ⟨trivial, trivial, by simp [Block.targets], by simp [Block.targets]⟩

namespace Packable

theorem target_lt (h : Packable context lanes V W bound first) {r : Nat}
    (hr : r ∈ Block.targets first) : r < bound :=
  h.mentions r (Block.targets_subset_mentions _ r hr)

theorem reads_new (h : Packable context lanes V W bound (first ++ rest)) :
    Block.Scoped false W first :=
  (Block.scoped_append.mp h.reads).1.of_uses fun r hV hu =>
    h.live r hV (Block.mem_uses_append.mpr (Or.inl hu))

theorem behind (h : Packable context lanes V W bound (part ++ rest)) (count : Nat)
    (hd : ∀ r ∈ Block.define part ∅, r ∈ Block.uses rest → r ∈ Block.define part' ∅) :
    Packable context lanes (Block.define part V) (Block.define part' W) (bound + count) rest := by
  have hnodup := h.nodup
  rw [Block.targets_append] at hnodup
  refine ⟨(Block.each_append.mp h.admitted).2, (Block.scoped_append.mp h.reads).2,
    (List.nodup_append.mp hnodup).2.1, fun r hr => ?_, Block.live_behind h.live hd⟩
  exact Nat.lt_of_lt_of_le (h.mentions r (Block.mem_mentions_append.mpr (Or.inr hr)))
    (Nat.le_add_right _ _)

theorem keep (h : Packable context lanes V W bound (first ++ rest))
    (hrest : Packs context lanes (Block.define first W) bound rest new) :
    Packs context lanes W bound (first ++ rest) (first ++ new) := by
  have hd := h.nodup
  rw [Block.targets_append] at hd
  exact ⟨Block.each_append.mpr ⟨(Block.each_append.mp h.admitted).1, hrest.admitted⟩,
    Block.scoped_append.mpr ⟨h.reads_new, hrest.reads⟩,
    Block.nodup_replaced h.nodup (fun _ => h.target_lt) (fun _ => Or.inl) hrest.targets
    (Nat.le_refl _) (List.nodup_append.mp hd).1 hrest.nodup,
    Block.targets_replaced (fun _ => Or.inl) hrest.targets⟩

theorem replace (h : Packable context lanes V W bound (part ++ rest))
    (hp : Block.Each (fun shape inst => inst.Admitted context lanes shape) none part')
    (hs : Block.Scoped false W part') (ht : Block.targets part' = List.range' bound count)
    (hrest : Packs context lanes (Block.define part' W) (bound + count) rest new) :
    Packs context lanes W bound (part ++ rest) (part' ++ new) := by
  have hpart : ∀ r : Nat, r ∈ Block.targets part' → bound ≤ r ∧ r < bound + count := fun r hr =>
    List.mem_range'_1.mp (ht ▸ hr)
  exact ⟨Block.each_append.mpr ⟨hp, hrest.admitted⟩, Block.scoped_append.mpr ⟨hs, hrest.reads⟩,
    Block.nodup_replaced h.nodup (fun _ => h.target_lt)
    (fun r hr => Or.inr (hpart r hr)) hrest.targets
      (Nat.le_add_right _ _) (ht ▸ List.nodup_range') hrest.nodup,
    Block.targets_replaced (fun r hr => Or.inr (hpart r hr).1)
      fun r hr => (hrest.targets r hr).imp_right (Nat.le_trans (Nat.le_add_right _ _))⟩

end Packable

variable [Scalar α]

namespace Pack

/-- A bundle in the place of its chunks: admitted, reading nothing from outside and setting
registers in a row. -/
theorem bundle_accepted {w next : Nat} {items : List (Item α)} {chunks : List (List (Piece α))}
    {head : List (Piece α)} {steps : List Int} {P : Item α → Prop} (hw : w ≠ 0)
    (hl : ∀ r : Nat, next ≤ r → lanes r = w) (hle : w ≤ items.length)
    (hchunks : List.Forall₂ (fun item ps => Chunk [] (Item.body item) ps ∧ P item)
      (items.take w) chunks)
    (hfirst : chunks.head? = some head) (hmoves : Steps steps)
    (hlen : steps.length = (addresses head).length)
    (hfits : ∀ (k : Nat) (ps : List (Piece α)), chunks[k]? = some ps → fits head steps ps k = true)
    (hp : Block.Each (fun shape inst => inst.Admitted context lanes shape) none
      ((items.take w).map Item.body).flatten) (W : Set Reg) :
    Block.Each (fun shape inst => inst.Admitted context lanes shape) none
      (emit next w 0 head steps) ∧ Block.Scoped false W (emit next w 0 head steps) ∧
      Block.targets (emit next w 0 head steps) = List.range' next (head.length - 1) := by
  have hcount : chunks.length = w := by
    rw [← hchunks.length_eq, List.length_take]
    omega
  have hchunk : ∀ (k : Nat) (ps : List (Piece α)), chunks[k]? = some ps →
    ∃ insts, Chunk [] insts ps ∧
      Block.Each (fun shape inst => inst.Admitted context lanes shape) none insts := by
    intro k ps hk
    obtain ⟨item, hi, hc, -⟩ := (forall₂_exists_of_mem hchunks).2 ps (List.mem_of_getElem? hk)
    refine ⟨item.body, hc, Block.each_iff.mpr fun inst hinst => Block.each_iff.mp hp inst ?_⟩
    exact List.mem_flatten.mpr ⟨_, List.mem_map_of_mem hi, hinst⟩
  obtain ⟨insts, hc, hp⟩ := hchunk 0 head (by rwa [← List.head?_eq_getElem?])
  obtain ⟨last, hlast⟩ : ∃ last, chunks[w - 1]? = some last :=
    ⟨_, List.getElem?_eq_getElem (by omega)⟩
  obtain ⟨insts', hc', hp'⟩ := hchunk _ _ hlast
  refine ⟨hc.admitted_emit hw hl hc' (hfits _ _ hlast) hmoves hlen hp hp', ?_, ?_⟩
  · rw [emit_eq_widen hmoves.1]
    exact (Inst.scoped_widen w _ (hc.scoped_emit (by simp))).mono (by simp) (Set.Subset.refl _)
  · have ht := hc.targets_emit next w hlen
    rw [hc.length_eq, Nat.add_sub_cancel]
    simpa using ht

theorem packs_pack {w : Nat} (hw : w ≠ 0) (body : Block α) (next : Reg) :
    (∀ r : Nat, next ≤ r → lanes r = w) → Packable context lanes V W next body →
    Packs context lanes W next body
      (pack w 0 next (split (RegMap.tally (Block.uses body)) [] body)).1 := by
  revert V W
  refine pack_split_induction (motive := fun next old new _ => ∀ {V W : Set Reg},
    (∀ r : Nat, next ≤ r → lanes r = w) → Packable context lanes V W next old →
    Packs context lanes W next old new) ?_ ?_ ?_ hw rfl next
  · exact fun _ _ _ _ _ => Packs.nil
  · exact fun ih _ _ hl h => h.keep (ih hl (h.behind 0 fun _ hr _ => hr))
  · intro next next' count items code new hgood hb hdead ih V W hl h
    obtain ⟨hle, steps, first, chunks, hchunks, hfirst, hmoves, hlen, hfits, -, rfl, rfl⟩ :=
      bundle?_eq_some hgood hb
    obtain ⟨hemit, hscoped, htargets⟩ := bundle_accepted hw hl hle hchunks hfirst hmoves hlen hfits
      (Block.each_append.mp h.admitted).1 W
    exact h.replace hemit hscoped htargets (ih (fun r hr => hl r (Nat.le_of_add_right_le hr))
      (h.behind _ fun r hr hu =>
      absurd hu (hdead r ((Block.mem_or_mem_targets hr).resolve_left (by simp)))))

end Pack

theorem Routine.Accepted.packChunks {r : Routine α} (h : r.Accepted context) (w : Nat) :
    (r.packChunks w).1.Accepted context := by
  unfold Routine.packChunks
  split
  · exact h
  · rename_i hw
    obtain ⟨lanes, hl⟩ := h.admitted
    -- the registers of bundles are those that the code does not mention
    let lanes' : Reg → Nat := fun t => if (t : Nat) < r.sync.nextReg then lanes t else w
    have hold : Packable context lanes' ∅ ∅ r.sync.nextReg r.body :=
      ⟨hl.congr (fun _ _ hi h => h.congr hi) fun t ht => (if_pos (r.counted_sync t ht)).symm,
        h.reads, h.nodup, r.counted_sync, by simp⟩
    have hnew : ∀ t : Nat, r.sync.nextReg ≤ t → lanes' t = w :=
      fun t ht => if_neg (Nat.not_lt.mpr ht)
    have hpack := packs_pack (by omega) r.body r.sync.nextReg hnew hold
    exact ⟨⟨lanes', hpack.admitted⟩, hpack.reads, hpack.nodup⟩

end Packs
end StreamStats
