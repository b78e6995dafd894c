import StreamStats.Proofs.Insertions
import StreamStats.Proofs.Widened

/-! Packing packed code. The code is cut where it was cut before, a bundle being one chunk that no
longer has pieces. What a bundle takes away is read nowhere else, so registers of the other chunks
are read as often as before; and between bundles there is nothing that could have been packed at
first. So one time is enough. -/

namespace StreamStats

variable {α : Type}

namespace Pack

variable {uses uses' : RegMap Nat} {items items' : List (Item α)}

/-- No chunk comes first. -/
def Loose (items : List (Item α)) : Prop := ∀ item ∈ items.head?, ∃ inst, item = .single inst

/-- Items as a block is cut into them: a store ends a chunk, and what sets a register is in the
chunk that comes next, unless a call or a loop comes before, or none comes. -/
inductive Cut : List (Item α) → Prop
  | nil : Cut []
  | chunk {front : Block α} {dst : Address} {x : Operand α} {n : Nat} {ps : Option (List (Piece α))}
      {items : List (Item α)} (sets : ∀ inst ∈ front, inst.target?.isSome = true)
      (more : Cut items) : Cut (.chunk (front ++ [.store dst x n]) ps :: items)
  | stop {inst : Inst α} {items : List (Item α)} (target : inst.target? = none)
      (store : ∀ dst x n, inst ≠ .store dst x n) (more : Cut items) : Cut (.single inst :: items)
  | loose {inst : Inst α} {items : List (Item α)} (sets : inst.target?.isSome = true)
      (behind : Loose items) (more : Cut items) : Cut (.single inst :: items)

theorem split_sets {front : Block α} (hf : ∀ inst ∈ front, inst.target?.isSome = true)
    (rest : Block α) :
    ∀ pending, split uses pending (front ++ rest) = split uses (front.reverse ++ pending) rest := by
  induction front with
  | nil => exact fun _ => rfl
  | cons inst front ih =>
    intro pending
    obtain ⟨hi, hf⟩ := List.forall_mem_cons.mp hf
    have hstep : split uses pending (inst :: (front ++ rest)) =
        split uses (inst :: pending) (front ++ rest) := by
      cases inst with
      | load _ _ _ => rfl
      | binary _ _ _ _ => rfl
      | store _ _ _ => cases hi
      | call _ => cases hi
      | loop _ _ _ _ => cases hi
    rw [List.cons_append, hstep, ih hf, List.reverse_cons, List.append_assoc, List.singleton_append]

theorem split_stop {inst : Inst α} (ht : inst.target? = none)
    (hs : ∀ dst x n, inst ≠ .store dst x n) (rest : Block α) (pending : List (Inst α)) :
    split uses pending (inst :: rest) = pending.reverse.map .single ++ .single inst ::
      split uses [] rest := by
  cases inst with
  | load _ _ _ => cases ht
  | binary _ _ _ _ => cases ht
  | store dst x n => exact absurd rfl (hs dst x n)
  | call _ => rfl
  | loop _ _ _ _ => rfl

theorem Cut.singles {insts : List (Inst α)} (hi : ∀ inst ∈ insts, inst.target?.isSome = true)
    (h : Cut items) (hl : Loose items) : Cut (insts.map .single ++ items) := by
  induction insts with
  | nil => exact h
  | cons inst insts ih =>
    obtain ⟨hinst, hinsts⟩ := List.forall_mem_cons.mp hi
    refine .loose hinst ?_ (ih hinsts)
    cases insts with
    | nil => exact hl
    | cons inst' _ => simp [Loose]

theorem cut_split (uses : RegMap Nat) (body : List (Inst α)) : ∀ pending : List (Inst α),
    (∀ inst ∈ pending, inst.target?.isSome = true) → Cut (split uses pending body) := by
  induction body with
  | nil =>
    intro pending hp
    have := Cut.singles (fun inst hi => hp inst (List.mem_reverse.mp hi)) .nil (by simp [Loose])
    rwa [List.append_nil] at this
  | cons inst rest ih =>
    intro pending hp
    have hrest : Cut (split uses [] rest) := ih [] (by simp)
    have hreverse : ∀ i ∈ pending.reverse, i.target?.isSome = true :=
      fun i hi => hp i (List.mem_reverse.mp hi)
    cases inst with
    | load _ _ _ => exact ih _ (List.forall_mem_cons.mpr ⟨rfl, hp⟩)
    | binary _ _ _ _ => exact ih _ (List.forall_mem_cons.mpr ⟨rfl, hp⟩)
    | store dst x n =>
      rw [split, ofChunk, List.reverse_cons]
      exact .chunk hreverse hrest
    | call _ => exact .singles hreverse (.stop rfl (by simp) hrest) (by simp [Loose])
    | loop _ _ _ _ => exact .singles hreverse (.stop rfl (by simp) hrest) (by simp [Loose])

theorem Cut.split_eq (h : Cut items) (hgood : ∀ item ∈ items, item.Good uses) :
    ∀ pending : List (Inst α), pending = [] ∨ Loose items →
    split uses pending (items.flatMap Item.body) = pending.reverse.map .single ++ items := by
  -- what is pending came from outside of chunks, so no chunk may come to take it in
  induction h with
  | nil =>
    intro pending _
    rw [List.flatMap_nil, split, List.append_nil]
  | @chunk front dst x n ps items sets _ ih =>
    intro pending hp
    obtain ⟨⟨-, rfl⟩, hrest⟩ := List.forall_mem_cons.mp hgood
    obtain rfl : pending = [] := by
      refine hp.resolve_right fun hl => ?_
      obtain ⟨inst, hi⟩ := hl _ rfl
      cases hi
    rw [List.flatMap_cons, Item.body, List.append_assoc, split_sets sets, List.singleton_append,
      split, ih hrest [] (Or.inl rfl)]
    simp [ofChunk]
  | @stop inst items target store _ ih =>
    intro pending _
    rw [List.flatMap_cons, Item.body, List.singleton_append, split_stop target store,
      ih (List.forall_mem_cons.mp hgood).2 [] (Or.inl rfl), List.reverse_nil, List.map_nil,
      List.nil_append]
  | @loose inst items sets behind _ ih =>
    intro pending _
    have hsets : ∀ i ∈ [inst], i.target?.isSome = true := by simpa using sets
    rw [List.flatMap_cons, Item.body, split_sets hsets, List.reverse_singleton,
      List.singleton_append, ih (List.forall_mem_cons.mp hgood).2 _ (Or.inr behind)]
    simp

theorem Cut.behind {item : Item α} (h : Cut (item :: items)) : Cut items := by
  cases h with
  | chunk _ more => exact more
  | stop _ _ more => exact more
  | loose _ _ more => exact more

theorem Cut.drop (h : Cut items) (k : Nat) : Cut (items.drop k) := by
  induction k generalizing items with
  | zero => exact h
  | succ k ih =>
    cases items with
    | nil => exact .nil
    | cons item items => exact ih h.behind

theorem Chunk.scoped {set : List Reg} {insts : List (Inst α)} {ps : List (Piece α)}
    (h : Chunk set insts ps) :
    ∀ {V : Set Reg}, (∀ r ∈ set, r ∈ V) → Block.Scoped true V insts := by
  have hreads : ∀ {set : List Reg} {x : Operand α} {s : Slot α} {V : Set Reg},
      slot? set x = some s → (∀ r ∈ set, r ∈ V) → x.Reads V := by
    intro set x s V hs hV
    rcases slot?_eq_some hs with ⟨v, rfl, -⟩ | ⟨r, p, rfl, -, hp⟩
    · trivial
    · exact hV r (List.mem_reverse.mp (List.mem_of_getElem? hp))
  have hmore : ∀ {set : List Reg} {dst : Reg} {V : Set Reg}, (∀ r ∈ set, r ∈ V) →
      ∀ r ∈ dst :: set, r ∈ V ∨ some dst = some r :=
    fun hV => List.forall_mem_cons.mpr ⟨Or.inr rfl, fun r hr => Or.inl (hV r hr)⟩
  induction h with
  | store _ slot => exact fun hV => ⟨hreads slot hV, trivial⟩
  | load _ _ ih => exact fun hV => ⟨trivial, ih (hmore hV)⟩
  | binary left right _ ih => exact fun hV => ⟨⟨hreads left hV, hreads right hV⟩, ih (hmore hV)⟩

/-- A block that ends in a store to a place that moves has no pieces. -/
theorem pieces?_of_stride {dst : Address} {x : Operand α} {n : Nat} (hd : dst.stride ≠ 0)
    (front : List (Inst α)) :
    ∀ set, pieces? set (front ++ [.store dst x n]) = none := by
  induction front with
  | nil =>
    intro set
    simp only [List.nil_append, pieces?]
    split
    · rw [if_neg fun h => hd h.2]
    · rfl
  | cons inst front ih =>
    intro set
    cases inst with
    | load _ _ _ => simp [pieces?, ih]
    | binary _ _ _ _ => simp [pieces?, ih]
    | store _ _ _ => simp [pieces?, ih]
    | call _ => rfl
    | loop _ _ _ _ => rfl

theorem Chunk.emit_eq {set : List Reg} {insts : List (Inst α)} {ps : List (Piece α)}
    (h : Chunk set insts ps) (next w : Nat) :
    ∀ {steps : List Int}, steps.length = (addresses ps).length →
    ∃ front dst x, emit next w set.length ps steps = front ++ [.store dst x w] ∧ dst.stride = 1 ∧
      ∀ inst ∈ front, inst.target?.isSome = true := by
  induction h with
  | @store set dst x s _ _ =>
    intro steps hlen
    cases steps with
    | nil => cases hlen
    | cons s steps => exact ⟨[], _, _, rfl, rfl, by simp⟩
  | @load set dst src insts ps _ _ ih =>
    intro steps hlen
    cases steps with
    | nil => cases hlen
    | cons s steps =>
      have hrest : steps.length = (addresses ps).length := by
        simpa [addresses, Piece.address?] using hlen
      obtain ⟨front, a, x, he, ha, hf⟩ := ih hrest
      refine ⟨_ :: front, a, x, congrArg (_ :: ·) he, ha, List.forall_mem_cons.mpr ⟨rfl, hf⟩⟩
  | @binary set dst op x y l r insts ps _ _ _ ih =>
    intro steps hlen
    obtain ⟨front, a, z, he, ha, hf⟩ := ih hlen
    refine ⟨_ :: front, a, z, congrArg (_ :: ·) he, ha, List.forall_mem_cons.mpr ⟨rfl, hf⟩⟩

theorem Item.Good.congr {item : Item α} (h : item.Good uses)
    (hsame : ∀ r ∈ Block.targets item.body, (uses'.get? r).getD 0 = (uses.get? r).getD 0) :
    item.Good uses' := by
  cases item with
  | single _ => trivial
  | chunk body ps =>
    obtain ⟨hform, rfl⟩ := h
    have hclosed : isClosed uses' body = isClosed uses body := by
      rw [isClosed, isClosed, Bool.eq_iff_iff, List.all_eq_true, List.all_eq_true]
      refine forall₂_congr fun r hr => ?_
      obtain ⟨inst, hi, ht⟩ := List.mem_filterMap.mp hr
      rw [hsame r (Block.mem_targets.mpr ⟨inst, hi, Inst.mem_targets_of_target? ht⟩)]
    exact ⟨hform, by rw [hclosed]⟩

variable [Scalar α] {w : Nat} {next : Reg}

/-- What a bundle is made of, and with which strides, is told by the items that it covers; the
registers come after. -/
theorem bundle?_eq_map (w : Nat) (next : Reg) (items : List (Item α)) :
    bundle? w next items =
      (do
        guard (w ≤ items.length)
        let chunks ← (items.take w).mapM Item.pieces?
        let steps ← strides? chunks
        let first ← chunks.head?
        return (steps, first)).map fun (steps, first) =>
          (emit next w 0 first steps, first.length - 1) := by
  unfold bundle?
  by_cases hle : w ≤ items.length
  · cases hm : (items.take w).mapM Item.pieces? with
    | none => simp [hle]
    | some chunks =>
      cases hs : strides? chunks with
      | none => simp [hle, hs]
      | some steps =>
        cases hf : chunks.head? with
        | none => simp [hle, hs, hf]
        | some first => simp [hle, hs, hf]
  · simp [hle]

theorem bundle?_eq_none_congr {n n' : Reg} (hle : w ≤ items.length)
    (ht : items'.take w = items.take w) (h : bundle? w n items = none) :
    bundle? w n' items' = none := by
  rw [bundle?_eq_map, Option.map_eq_none_iff] at h ⊢
  rw [ht]
  by_cases hle' : w ≤ items'.length
  · simpa [hle, hle'] using h
  · simp [hle']

theorem pieces_of_bundle? {made : Block α × Nat} (h : bundle? w next items = some made) :
    w ≤ items.length ∧ ∀ item ∈ items.take w, item.pieces?.isSome = true := by
  simp only [bundle?, Option.bind_eq_bind, Option.bind_eq_some_iff, Option.guard_eq_some'] at h
  obtain ⟨-, hle, chunks, hchunks, -⟩ := h
  refine ⟨hle, fun item hi => ?_⟩
  obtain ⟨ps, -, hp⟩ := (forall₂_exists_of_mem (forall₂_of_mapM_eq_some hchunks)).1 item hi
  rw [hp]
  rfl

theorem bundle?_cons_of_none (hw : w ≠ 0) {item : Item α} (hi : item.pieces? = none) (next : Reg) :
    bundle? w next (item :: items) = none := by
  rw [Option.eq_none_iff_forall_ne_some]
  intro made h
  obtain ⟨v, rfl⟩ := Nat.exists_eq_succ_of_ne_zero hw
  have := (pieces_of_bundle? h).2 item (by simp)
  simp [hi] at this

theorem exists_store_of_bundle? {code : Block α} {count : Nat}
    (hgood : ∀ item ∈ items, item.Good uses) (h : bundle? w next items = some (code, count)) :
    ∃ front dst x, code = front ++ [.store dst x w] ∧
      dst.stride = 1 ∧ ∀ inst ∈ front, inst.target?.isSome = true := by
  obtain ⟨-, steps, first, chunks, hchunks, hfirst, -, hlen, -, -, rfl, -⟩ :=
    bundle?_eq_some hgood h
  obtain ⟨item, -, hchunk, -⟩ :=
    (forall₂_exists_of_mem hchunks).2 first (List.mem_of_mem_head? hfirst)
  exact hchunk.emit_eq next w hlen

theorem mem_targets_of_bundle? {code : Block α} {count : Nat}
    (hgood : ∀ item ∈ items, item.Good uses) (h : bundle? w next items = some (code, count))
    {r : Reg} (hr : r ∈ Block.uses ((items.take w).map Item.body).flatten) :
    r ∈ Block.targets ((items.take w).map Item.body).flatten := by
  obtain ⟨-, -, -, chunks, hchunks, -⟩ := bundle?_eq_some hgood h
  obtain ⟨inst, hinst, hx⟩ := Block.mem_operands.mp (Block.mem_uses.mp hr)
  obtain ⟨body, hbody, hinst⟩ := List.mem_flatten.mp hinst
  obtain ⟨item, hi, rfl⟩ := List.mem_map.mp hbody
  obtain ⟨ps, -, hchunk, -⟩ := (forall₂_exists_of_mem hchunks).1 item hi
  have hscoped : Block.Scoped true ∅ item.body := hchunk.scoped (by simp)
  have hm : r ∈ Block.mentions item.body :=
    Block.mem_mentions_of_operand (Block.mem_operands.mpr ⟨inst, hinst, hx⟩)
  have ht := (Block.mentions_of_scoped hscoped r hm).resolve_left (by simp)
  obtain ⟨inst', hinst', ht⟩ := Block.mem_targets.mp ht
  exact Block.mem_targets.mpr ⟨inst', List.mem_flatten.mpr ⟨_, hbody, hinst'⟩, ht⟩

/-- Items, what is left of them behind packing, and the number of bundles. -/
inductive Packs (w : Nat) : Reg → List (Item α) → List (Item α) → Nat → Prop
  | nil {next : Reg} : Packs w next [] [] 0
  | keep {next : Reg} {item : Item α} {items items' : List (Item α)} {n : Nat}
      (apart : bundle? w next (item :: items) = none) (more : Packs w next items items' n) :
      Packs w next (item :: items) (item :: items') n
  | bundle {next : Reg} {items items' : List (Item α)} {code : Block α} {count n : Nat}
      (made : bundle? w next items = some (code, count)) (more : Packs w (next + count)
        (items.drop w) items' n) : Packs w next items (.chunk code none :: items') (n + 1)

theorem exists_packs (hw : w ≠ 0) (items : List (Item α)) : ∀ (skip : Nat) (next : Reg),
    ∃ items', Packs w next (items.drop skip) items' (pack w skip next items).2.2 ∧
      (pack w skip next items).1 = items'.flatMap Item.body := by
  induction items with
  | nil =>
    intro skip next
    rw [List.drop_nil]
    cases skip <;> exact ⟨[], .nil, rfl⟩
  | cons item items ih =>
    intro skip next
    cases skip with
    | succ skip => exact ih skip next
    | zero =>
      simp only [pack, List.drop_zero]
      cases hb : bundle? w next (item :: items) with
      | none =>
        obtain ⟨items', hp, he⟩ := ih 0 next
        exact ⟨_, .keep hb hp, congrArg (item.body ++ ·) he⟩
      | some made =>
        obtain ⟨code, count⟩ := made
        obtain ⟨items', hp, he⟩ := ih (w - 1) (next + count)
        rw [← drop_cons_of_ne_zero hw item items] at hp
        exact ⟨_, .bundle hb hp, congrArg (code ++ ·) he⟩

/-- No run of items can be packed. -/
def Settled (w : Nat) : List (Item α) → Prop
  | [] => True
  | item :: items => (∀ next, bundle? w next (item :: items) = none) ∧ Settled w items

theorem pack_of_settled (h : Settled w items) (next : Reg) :
    pack w 0 next items = (items.flatMap Item.body, next, 0) := by
  induction items with
  | nil => rfl
  | cons item items ih => simp only [pack, h.1 next, ih h.2, List.flatMap_cons]

namespace Packs

variable {n : Nat}

theorem eq_of_zero (h : Packs w next items items' 0) : items' = items := by
  generalize hn : 0 = n at h
  induction h with
  | nil => rfl
  | keep _ _ ih => rw [ih hn]
  | bundle _ _ _ => cases hn

theorem take_eq (h : Packs w next items items' n) : ∀ {k : Nat}, k ≤ items'.length →
    (∀ item ∈ items'.take k, item.pieces?.isSome = true) → k ≤ items.length ∧
    items'.take k = items.take k := by
  induction h with
  | nil => exact fun hk _ => ⟨hk, rfl⟩
  | @keep _ item _ _ _ _ _ ih =>
    intro k hk hp
    cases k with
    | zero => exact ⟨Nat.zero_le _, rfl⟩
    | succ k =>
      obtain ⟨-, hp⟩ := List.forall_mem_cons.mp hp
      obtain ⟨hle, he⟩ := ih (Nat.le_of_succ_le_succ hk) hp
      exact ⟨Nat.succ_le_succ hle, congrArg (item :: ·) he⟩
  | bundle _ _ _ =>
    intro k _ hp
    cases k with
    | zero => exact ⟨Nat.zero_le _, rfl⟩
    | succ k => cases (List.forall_mem_cons.mp hp).1

/-- Packing from the front on leaves nothing that could be packed. -/
theorem settled (hw : w ≠ 0) (h : Packs w next items items' n) : Settled w items' := by
  induction h with
  | nil => trivial
  | @keep _ item items items' _ hnone more ih =>
    refine ⟨fun next' => ?_, ih⟩
    rw [Option.eq_none_iff_forall_ne_some]
    intro made hb
    -- were these packed now, then no bundle among them, and they would have been packed before
    obtain ⟨hle, hp⟩ := pieces_of_bundle? hb
    obtain ⟨hle', ht⟩ := (Packs.keep hnone more).take_eq hle hp
    rw [bundle?_eq_none_congr hle' ht hnone] at hb
    cases hb
  | bundle _ _ ih => exact ⟨fun next' => bundle?_cons_of_none hw rfl next', ih⟩

theorem loose (hw : w ≠ 0) (h : Packs w next items items' n) (hl : Loose items) : Loose items' := by
  cases h with
  | nil => exact hl
  | keep _ _ => exact hl
  | bundle hsome _ =>
    obtain ⟨hle, hp⟩ := pieces_of_bundle? hsome
    cases items with
    | nil => exact absurd (Nat.le_zero.mp hle) hw
    | cons item items =>
      obtain ⟨inst, rfl⟩ := hl item rfl
      rw [bundle?_cons_of_none hw rfl] at hsome
      cases hsome

theorem cut (hw : w ≠ 0) (h : Packs w next items items' n) (hgood : ∀ item ∈ items, item.Good uses)
    (hc : Cut items) :
    Cut items' := by
  induction h with
  | nil => exact .nil
  | keep _ more ih =>
    have ih := ih (List.forall_mem_cons.mp hgood).2
    cases hc with
    | chunk sets hc => exact .chunk sets (ih hc)
    | stop target store hc => exact .stop target store (ih hc)
    | loose sets behind hc => exact .loose sets (more.loose hw behind) (ih hc)
  | bundle hsome _ ih =>
    obtain ⟨front, dst, x, rfl, -, hf⟩ := exists_store_of_bundle? hgood hsome
    exact .chunk hf (ih (fun item hi => hgood item (List.mem_of_mem_drop hi)) (hc.drop w))

/-- Registers from before are set where they were, or no longer. -/
theorem mem_targets (h : Packs w next items items' n) (hgood : ∀ item ∈ items, item.Good uses)
    {r : Nat} (hr : r < next) (ht : r ∈ Block.targets (items'.flatMap Item.body)) :
    r ∈ Block.targets (items.flatMap Item.body) := by
  induction h with
  | nil => exact ht
  | keep _ _ ih =>
    rw [List.flatMap_cons, Block.targets_append, List.mem_append] at ht ⊢
    exact ht.imp_right (ih (List.forall_mem_cons.mp hgood).2 hr)
  | @bundle next items _ _ count _ hsome _ ih =>
    rw [List.flatMap_cons, Block.targets_append, List.mem_append] at ht
    rw [flatMap_take_drop w, Block.targets_append, List.mem_append]
    rcases ht with ht | ht
    · have := (mentions_bundle hgood hsome r (Block.targets_subset_mentions _ r ht)).1
      omega
    · exact Or.inr (ih (fun item hi => hgood item (List.mem_of_mem_drop hi)) (by omega) ht)

/-- Registers that no bundle takes away are read as often as before. -/
theorem count_eq (h : Packs w next items items' n) (hgood : ∀ item ∈ items, item.Good uses)
    (hd : (Block.targets (items.flatMap Item.body)).Nodup) {r : Nat} (hr : r < next)
    (hkept : r ∉ Block.targets (items.flatMap Item.body) ∨
      r ∈ Block.targets (items'.flatMap Item.body)) :
    (Block.uses (items'.flatMap Item.body)).count r =
      (Block.uses (items.flatMap Item.body)).count r := by
  induction h with
  | nil => rfl
  | @keep _ item _ _ _ _ _ ih =>
    simp only [List.flatMap_cons, Block.targets_append, List.mem_append, not_or, Block.uses_append,
      List.count_append] at hkept hd ⊢
    obtain ⟨-, hrest, hapart⟩ := List.nodup_append.mp hd
    rw [ih (List.forall_mem_cons.mp hgood).2 hrest hr]
    rcases hkept with ⟨-, hkept⟩ | hkept | hkept
    · exact Or.inl hkept
    · exact Or.inl fun ht => hapart r hkept r ht rfl
    · exact Or.inr hkept
  | @bundle next items items' code count _ hsome more ih =>
    have hbehind : ∀ item ∈ items.drop w, item.Good uses := fun item hi =>
      hgood item (List.mem_of_mem_drop hi)
    have hnew : r ∉ Block.mentions code :=
      fun hm => absurd (mentions_bundle hgood hsome r hm).1 (Nat.not_le.mpr hr)
    have hcode : r ∉ Block.uses code :=
      fun hu => hnew (Block.mem_mentions_of_operand (Block.mem_uses.mp hu))
    have hcode' : r ∉ Block.targets code := fun ht => hnew (Block.targets_subset_mentions _ r ht)
    have hnext : r < next + count := Nat.lt_add_right _ hr
    rw [flatMap_take_drop w items] at hkept hd ⊢
    simp only [List.flatMap_cons, Item.body, Block.targets_append, List.mem_append, not_or,
      Block.uses_append, List.count_append] at hkept hd ⊢
    obtain ⟨-, hrest, hapart⟩ := List.nodup_append.mp hd
    have hbehind' : r ∉ Block.targets ((items.drop w).flatMap Item.body) ∨
        r ∈ Block.targets (items'.flatMap Item.body) :=
      hkept.imp And.right fun h => h.resolve_left hcode'
    -- the chunks read their own registers only, and of those none is left
    have hold : r ∉ Block.targets ((items.take w).map Item.body).flatten := by
      rcases hkept with hkept | hkept
      · exact hkept.1
      · have ht := more.mem_targets hbehind hnext (hkept.resolve_left hcode')
        exact fun ht' => hapart r ht' r ht rfl
    rw [ih hbehind hrest hnext hbehind', List.count_eq_zero_of_not_mem hcode,
      List.count_eq_zero_of_not_mem fun hu => hold (mem_targets_of_bundle? hgood hsome hu)]

theorem good (h : Packs w next items items' n) {bound : Nat}
    (hgood : ∀ item ∈ items, item.Good uses)
    (hbound : ∀ r : Nat, r ∈ Block.targets (items.flatMap Item.body) → r < bound)
    (hsame : ∀ r : Nat, r < bound → r ∈ Block.targets (items'.flatMap Item.body) →
      (uses'.get? r).getD 0 = (uses.get? r).getD 0) : ∀ item ∈ items', item.Good uses' := by
  induction h with
  | nil => simp
  | keep _ _ ih =>
    obtain ⟨hitem, hrest⟩ := List.forall_mem_cons.mp hgood
    simp only [List.flatMap_cons, Block.targets_append, List.mem_append] at hbound hsame
    refine List.forall_mem_cons.mpr ⟨hitem.congr fun r hr => hsame r (hbound r (Or.inl hr))
      (Or.inl hr), ?_⟩
    exact ih hrest (fun r hr => hbound r (Or.inr hr)) fun r hr ht => hsame r hr (Or.inr ht)
  | @bundle _ items _ _ _ _ hsome _ ih =>
    obtain ⟨front, dst, x, rfl, hstride, hf⟩ := exists_store_of_bundle? hgood hsome
    have hmoves : dst.stride ≠ 0 := by simp [hstride]
    have hpieces := pieces?_of_stride (x := x) (n := w) hmoves front []
    rw [flatMap_take_drop w items] at hbound
    simp only [List.flatMap_cons, Block.targets_append, List.mem_append] at hbound hsame
    refine List.forall_mem_cons.mpr ⟨⟨⟨front, dst, x, w, rfl, hf⟩, by rw [hpieces, ite_self]⟩, ?_⟩
    exact ih (fun item hi => hgood item (List.mem_of_mem_drop hi))
      (fun r hr => hbound r (Or.inr hr)) fun r hr ht => hsame r hr (Or.inr ht)

end Packs

def cutting (body : Block α) : List (Item α) := split (RegMap.tally (Block.uses body)) [] body

omit [Scalar α] in
@[simp] theorem flatMap_cutting (body : Block α) : (cutting body).flatMap Item.body = body :=
  flatMap_split _ body []

/-- Packed code is cut where it was cut before. -/
theorem cutting_of_packs (hw : w ≠ 0) {body : Block α} {n : Nat}
    (h : Packs w next (cutting body) items' n) (hd : (Block.targets body).Nodup)
    (hnext : ∀ t : Nat, t ∈ Block.mentions body → t < next) :
    cutting (items'.flatMap Item.body) = items' := by
  have hgood := good_split (RegMap.tally (Block.uses body)) body [] (by simp)
  have hcut := h.cut hw hgood (cut_split _ body [] (by simp))
  have hbody := flatMap_cutting body
  have hgood' : ∀ item ∈ items',
      item.Good (RegMap.tally (Block.uses (items'.flatMap Item.body))) := by
    refine h.good hgood (fun t ht => hnext t ?_) fun r hr ht => ?_
    · rw [hbody] at ht
      exact Block.targets_subset_mentions body t ht
    · rw [RegMap.getD_tally, RegMap.getD_tally, h.count_eq hgood (by rwa [hbody]) hr (Or.inr ht),
        hbody]
  rw [cutting, hcut.split_eq hgood' [] (Or.inl rfl), List.reverse_nil, List.map_nil,
    List.nil_append]

/-- In packed code nothing can be packed. -/
theorem settled_pack (hw : w ≠ 0) {body : Block α} (hd : (Block.targets body).Nodup)
    (hnext : ∀ t : Nat, t ∈ Block.mentions body → t < next) :
    Settled w (cutting (pack w 0 next (cutting body)).1) := by
  obtain ⟨items', hp, he⟩ := exists_packs hw (cutting body) 0 next
  rw [List.drop_zero] at hp
  rw [he, cutting_of_packs hw hp hd hnext]
  exact hp.settled hw

theorem pack_of_zero (hw : w ≠ 0) {body : Block α} (h : (pack w 0 next (cutting body)).2.2 = 0) :
    (pack w 0 next (cutting body)).1 = body := by
  obtain ⟨items', hp, he⟩ := exists_packs hw (cutting body) 0 next
  rw [List.drop_zero, h] at hp
  rw [he, hp.eq_of_zero, flatMap_cutting]

end Pack

theorem Routine.packChunks_eq [Scalar α] {width : Nat} (hw : ¬width < 2) (r : Routine α) :
    r.packChunks width = ({ r.sync with
        body := (Pack.pack width 0 r.sync.nextReg (Pack.cutting r.body)).1
        nextReg := (Pack.pack width 0 r.sync.nextReg (Pack.cutting r.body)).2.1 },
      (Pack.pack width 0 r.sync.nextReg (Pack.cutting r.body)).2.2) :=
  if_neg hw

end StreamStats
