import StreamStats.Proofs.Chunks

/-! Packing chunks changes nothing, as long as no two numbers of the code are taken for equal that
are not. The registers of packed chunks are gone; nothing else reads them, so it is enough that the
states agree on the registers that both codes have in scope. -/

namespace StreamStats

open Exec Check Pack

variable {α : Type}

namespace Pack

variable [Scalar α] {context : Context α} {S : Set α} {info info' : Reg → Info α} {next w : Nat}
  {bodies : List (Block α)} {chunks : List (List (Piece α))} {first : List (Piece α)}
  {steps : List Int}

omit [Scalar α] in
theorem Aligned.length_pieces {k : Nat} {fs ps : List (Piece α)} (h : Aligned k steps fs ps) :
    fs.length = ps.length := by
  induction h with
  | nil => rfl
  | load _ _ _ ih => simp [ih]
  | binary _ ih => simp [ih]
  | store _ _ _ ih => simp [ih]

theorem bodies_end (call : String → Exec α Unit) (name : String) {code : Block α}
    (hs : Block.Scoped true ∅ code) {bodies : List (Block α)} :
    ∀ {b : Nat}, (∀ (i : Nat) (body : Block α), bodies[i]? = some body →
        (∃ φ, List.Forall₂ (Inst.Spreads φ (b + i) 1 0) code body ∧
          ∀ r ∈ Block.define code ∅, ∀ r' ∈ Block.define code ∅, φ r = φ r' → r = r') ∧
        ∀ inst ∈ body, inst.Plain context S info none) →
      ∀ {s : Lanes α} {f : Frame α}, s.memory.Fits context.segments →
      ∃ f', Block.exec call name 0 bodies.flatten f s.memory =
          .ok f' (Block.actEach code (List.range' b bodies.length) s).memory ∧
        (Block.actEach code (List.range' b bodies.length) s).memory.Fits context.segments := by
  induction bodies with
  | nil => exact fun _ s f hm => ⟨f, rfl, hm⟩
  | cons body bodies ih =>
    intro b h s f hm
    obtain ⟨⟨φ, hspread, hφ⟩, hplain⟩ := h 0 body rfl
    obtain ⟨f₁, hx, hm₁⟩ := Block.spreads_ends call name (g := f) (c := 0)
      (show AtCount none 0 from rfl) hspread hs hφ (fun r hr => absurd hr (by simp)) hm hplain
    have hone : Block.actAll code (List.range' (b + 0) 1) s =
        Block.actEach code (List.range' b 1) s := rfl
    rw [hone] at hx hm₁
    obtain ⟨f₂, hy, hm₂⟩ := ih (b := b + 1) (fun i body hi => by
      have := h (i + 1) body hi
      rwa [← Nat.add_assoc, Nat.add_right_comm] at this) (f := f₁) hm₁
    have hadd := Block.actEach_add code b 1 bodies.length s
    rw [Nat.add_comm 1] at hadd
    rw [List.length_cons, hadd]
    refine ⟨f₂, ?_, hm₂⟩
    rw [List.flatten_cons, Block.exec_append, Exec.bind_of_ok hx, hy]

/-- Chunks that can be packed, with their pieces. -/
structure Bundle (context : Context α) (S : Set α) (info : Reg → Info α) (steps : List Int)
    (first : List (Piece α)) (bodies : List (Block α)) (chunks : List (List (Piece α))) : Prop where
  chunk : List.Forall₂ (Chunk []) bodies chunks
  plain : ∀ body ∈ bodies, ∀ inst ∈ body, inst.Plain context S info none
  nodup : ∀ body ∈ bodies, (Block.targets body).Nodup
  head : chunks.head? = some first
  moves : Steps steps
  aligned : ∀ (k : Nat) (ps : List (Piece α)), chunks[k]? = some ps → Aligned k steps first ps
  independent : ∀ (k k' : Nat), k < k' → ∀ ps ps', chunks[k]? = some ps → chunks[k']? = some ps' →
    ∀ t, target? ps = some t → t ∉ sources ps'

namespace Bundle

theorem exists_chunk (h : Bundle context S info steps first bodies chunks) {k : Nat}
    {body : Block α} (hb : bodies[k]? = some body) :
    ∃ ps, chunks[k]? = some ps ∧ Chunk [] body ps ∧ Aligned k steps first ps := by
  obtain ⟨hk, rfl⟩ := List.getElem?_eq_some_iff.mp hb
  have hk' : k < chunks.length := h.chunk.length_eq ▸ hk
  have hps : chunks[k]? = some chunks[k] := List.getElem?_eq_getElem hk'
  refine ⟨chunks[k], hps, ?_, h.aligned k _ hps⟩
  exact h.chunk.get hk hk'

theorem exists_head (h : Bundle context S info steps first bodies chunks) :
    ∃ body rest, bodies = body :: rest ∧ Chunk [] body first := by
  have hc := h.chunk
  have hh := h.head
  cases hc with
  | nil => cases hh
  | @cons body ps bodies chunks hc _ =>
    cases hh
    exact ⟨body, bodies, rfl, hc⟩

theorem lane (h : Bundle context S info steps first bodies chunks) {k : Nat}
    (hk : k < bodies.length) :
    Lane context S info k steps first (chunks.getD k []) := by
  obtain ⟨ps, hps, hc, ha⟩ := h.exists_chunk (List.getElem?_eq_getElem hk)
  rw [List.getD_eq_getElem?_getD, hps]
  exact ⟨ha, _, _, hc, h.plain _ (List.getElem_mem hk)⟩

theorem spreads (h : Bundle context S info steps first bodies chunks) {k : Nat} {body : Block α}
    (hb : bodies[k]? = some body) :
    ∃ φ, List.Forall₂ (Inst.Spreads φ k 1 0) (emit next 1 0 first steps) body ∧
      ∀ r ∈ Block.define (emit next 1 0 first steps) ∅,
      ∀ r' ∈ Block.define (emit next 1 0 first steps) ∅, φ r = φ r' → r = r' := by
  obtain ⟨ps, -, hc, ha⟩ := h.exists_chunk hb
  obtain ⟨head, _, -, hhead⟩ := h.exists_head
  have hcount : (Block.targets head).length = (Block.targets body).length := by
    have := hhead.length_eq
    have := hc.length_eq
    have := ha.length_pieces
    omega
  have htargets : ∀ r ∈ Block.define (emit next 1 0 first steps) ∅,
      ∃ p < (Block.targets body).length, r = next + p := by
    intro r hr
    obtain ⟨inst, hi, ht⟩ := (Block.mem_define.mp hr).resolve_left (by simp)
    have hmem : r ∈ Block.targets (emit next 1 0 first steps) :=
      Block.mem_targets.mpr ⟨inst, hi, Inst.mem_targets_of_target? ht⟩
    have hemit := hhead.targets_emit next 1 ha.length_eq.1
    simp only [List.length_nil, Nat.add_zero] at hemit
    rw [hemit, hcount] at hmem
    obtain ⟨p, hp, rfl⟩ := List.mem_range'.mp hmem
    exact ⟨p, hp, by simp⟩
  have hnodup := h.nodup body (List.mem_of_getElem? hb)
  refine ⟨fun r => (Block.targets body).getD (r - next) 0, hc.spreads ha h.moves fun p r hp => ?_,
    ?_⟩
  · have hp : (Block.targets body)[p]? = some r := by simpa using hp
    simp [List.getD_eq_getElem?_getD, hp]
  · intro r hr r' hr' he
    obtain ⟨p, hp, rfl⟩ := htargets r hr
    obtain ⟨p', hp', rfl⟩ := htargets r' hr'
    simp only [Nat.add_sub_cancel_left, List.getD_eq_getElem?_getD, List.getElem?_eq_getElem hp,
      List.getElem?_eq_getElem hp', Option.getD_some] at he
    rw [(List.Nodup.getElem_inj_iff hnodup).mp he]

theorem scoped_emit (h : Bundle context S info steps first bodies chunks) (next : Nat)
    (V : Set Reg) :
    Block.Scoped true V (emit next w 0 first steps) := by
  obtain ⟨body, rest, -, hc⟩ := h.exists_head
  rw [emit_eq_widen h.moves.1]
  exact Inst.scoped_widen w _ (hc.scoped_emit (by simp))

theorem targets_emit (h : Bundle context S info steps first bodies chunks) (next : Nat) :
    Block.targets (emit next w 0 first steps) = List.range' next (first.length - 1) := by
  obtain ⟨body, rest, hb, hc⟩ := h.exists_head
  have hzero : bodies[0]? = some body := by simp [hb]
  obtain ⟨ps, -, -, ha⟩ := h.exists_chunk hzero
  have hlen := hc.length_eq
  have := hc.targets_emit next w ha.length_eq.1
  rw [hlen, Nat.add_sub_cancel]
  simpa using this

theorem plain_emit (h : Bundle context S info steps first bodies chunks) (hw : bodies.length = w)
    (hw0 : w ≠ 0) (hinfo : ∀ body rest, bodies = body :: rest →
      Carries info info' next w (Block.targets body)) :
    ∀ inst ∈ emit next w 0 first steps, inst.Plain context S info' none := by
  obtain ⟨body, rest, hb, hc⟩ := h.exists_head
  exact hc.plain_emit hw0 (h.plain body (by simp [hb])) (fun k hk => ⟨_, h.lane (hw ▸ hk)⟩) h.moves
    (by simpa using hinfo body rest hb)

theorem ends (h : Bundle context S info steps first bodies chunks) (hw : bodies.length = w)
    (hw0 : w ≠ 0) (hinfo : ∀ body rest, bodies = body :: rest →
      Carries info info' next w (Block.targets body))
    (call call' : String → Exec α Unit) (name : String) (f g : Frame α) (m : Memory α)
    (hm : m.Fits context.segments) :
    ∃ f' g' m', Block.exec call name 0 bodies.flatten f m = .ok f' m' ∧
      Block.exec call' name 0 (emit next w 0 first steps) g m = .ok g' m' ∧
      m'.Fits context.segments := by
  obtain ⟨head, rest, hbodies, hhead⟩ := h.exists_head
  have hscoped : Block.Scoped true ∅ (emit next 1 0 first steps) := hhead.scoped_emit (by simp)
  obtain ⟨f', hx, hm'⟩ := bodies_end call name hscoped (b := 0)
    (fun i body hi => ⟨by simpa using h.spreads hi, h.plain body (List.mem_of_getElem? hi)⟩)
    (s := ⟨fun _ _ => 0, m⟩) (f := f) hm
  have hplain := h.plain_emit hw hw0 hinfo
  have hspread : List.Forall₂ (Inst.Spreads id 0 w 0) (emit next 1 0 first steps)
      (emit next w 0 first steps) := by
    rw [emit_eq_widen h.moves.1 (w := w)]
    exact forall₂_map_self fun inst hi => (single_emit inst hi).spreads_widen 0 w
  obtain ⟨g', hy, -⟩ := Block.spreads_ends call' name (g := g) (c := 0)
    (show AtCount none 0 from rfl) hspread hscoped (fun _ _ _ _ he => he) (s := ⟨fun _ _ => 0, m⟩)
    (fun r hr => absurd hr (by simp)) hm hplain
  have hapart := hhead.apart_emit next 0 (w := w) (fun k hk => h.lane (hw ▸ hk)) h.moves
      (fun k k' hlt hk' t ht => by
      obtain ⟨ps, hps, -⟩ := h.exists_chunk
        (List.getElem?_eq_getElem (hw ▸ (hlt.trans hk') : k < bodies.length))
      obtain ⟨ps', hps', -⟩ :=
        h.exists_chunk (List.getElem?_eq_getElem (hw ▸ hk' : k' < bodies.length))
      rw [List.getD_eq_getElem?_getD, hps] at ht
      rw [List.getD_eq_getElem?_getD, hps']
      exact h.independent k k' hlt ps ps' hps hps' t ht)
  rw [Block.actAll_eq_actEach hapart, ← hw] at hy
  exact ⟨f', g', _, hx, hw ▸ hy, hm'⟩

end Bundle

/-- An item as the cutting of a block leaves it: a chunk has pieces only if nothing else reads what
it sets. -/
def Item.Good (uses : RegMap Nat) : Item α → Prop
  | .chunk body ps => (∃ front dst x n, body = front ++ [.store dst x n] ∧
      ∀ inst ∈ front, inst.target?.isSome = true) ∧
      ps = if isClosed uses body then Pack.pieces? [] body else none
  | .single _ => True

omit [Scalar α]

theorem Item.Good.chunk {uses : RegMap Nat} {item : Item α} (h : item.Good uses)
    {ps : List (Piece α)} (hp : item.pieces? = some ps) :
    Chunk [] item.body ps ∧ isClosed uses item.body = true := by
  cases item with
  | single _ => cases hp
  | chunk body ps' =>
    obtain ⟨⟨front, dst, x, n, rfl, hf⟩, hps⟩ := h
    have hp : ps' = some ps := hp
    rw [hp] at hps
    split at hps
    · rename_i hc
      exact ⟨chunk_of_pieces? hf hps.symm, hc⟩
    · cases hps

@[simp] theorem body_ofChunk (uses : RegMap Nat) (chunk : Block α) :
    (ofChunk uses chunk).body = chunk := rfl

@[simp] theorem flatMap_split (uses : RegMap Nat) (body : List (Inst α)) :
    ∀ pending : List (Inst α), (split uses pending body).flatMap Item.body = pending.reverse ++
      body := by
  have hsingle : ∀ insts : List (Inst α), (insts.map Item.single).flatMap Item.body = insts := by
    intro insts
    induction insts with
    | nil => rfl
    | cons inst insts ih => rw [List.map_cons, List.flatMap_cons, ih]; rfl
  induction body with
  | nil =>
    intro pending
    rw [split, hsingle, List.append_nil]
  | cons inst rest ih =>
    intro pending
    cases inst with
    | load _ _ _ =>
      simp only [split, ih, List.reverse_cons, List.append_assoc, List.singleton_append]
    | binary _ _ _ _ =>
      simp only [split, ih, List.reverse_cons, List.append_assoc, List.singleton_append]
    | store _ _ _ =>
      simp only [split, List.flatMap_cons, ih, body_ofChunk, List.reverse_cons, List.append_assoc,
        List.singleton_append, List.reverse_nil, List.nil_append]
    | call _ =>
      simp only [split, List.flatMap_append, List.flatMap_cons, hsingle, ih, Item.body,
        List.singleton_append, List.reverse_nil, List.nil_append]
    | loop _ _ _ _ =>
      simp only [split, List.flatMap_append, List.flatMap_cons, hsingle, ih, Item.body,
        List.singleton_append, List.reverse_nil, List.nil_append]

theorem good_split (uses : RegMap Nat) (body : List (Inst α)) : ∀ pending : List (Inst α),
    (∀ inst ∈ pending, inst.target?.isSome = true) → ∀ item ∈ split uses pending body,
    item.Good uses := by
  have hsingle : ∀ insts : List (Inst α), ∀ item ∈ insts.map Item.single, item.Good uses := by
    intro insts item hi
    obtain ⟨_, -, rfl⟩ := List.mem_map.mp hi
    trivial
  induction body with
  | nil => exact fun pending _ => hsingle _
  | cons inst rest ih =>
    intro pending hp
    cases inst with
    | load _ _ _ => exact ih _ (List.forall_mem_cons.mpr ⟨rfl, hp⟩)
    | binary _ _ _ _ => exact ih _ (List.forall_mem_cons.mpr ⟨rfl, hp⟩)
    | store dst x n =>
      refine List.forall_mem_cons.mpr ⟨⟨⟨pending.reverse, dst, x, n, by simp, ?_⟩, rfl⟩,
        ih [] (by simp)⟩
      exact fun i hi => hp i (List.mem_reverse.mp hi)
    | call _ =>
      intro item hi
      rcases List.mem_append.mp hi with hi | hi
      · exact hsingle _ item hi
      · exact List.forall_mem_cons.mpr ⟨trivial, ih [] (by simp)⟩ item hi
    | loop _ _ _ _ =>
      intro item hi
      rcases List.mem_append.mp hi with hi | hi
      · exact hsingle _ item hi
      · exact List.forall_mem_cons.mpr ⟨trivial, ih [] (by simp)⟩ item hi

theorem independent_of_isIndependent {chunks : List (List (Piece α))}
    (h : isIndependent chunks = true) :
    ∀ (k k' : Nat), k < k' → ∀ ps ps', chunks[k]? = some ps → chunks[k']? = some ps' →
      ∀ t, target? ps = some t → t ∉ sources ps' := by
  induction chunks with
  | nil => simp
  | cons chunk later ih =>
    simp only [isIndependent, Bool.and_eq_true, List.all_eq_true] at h
    intro k k' hlt ps ps' hps hps' t ht hmem
    obtain ⟨k', rfl⟩ : ∃ j, k' = j + 1 := ⟨k' - 1, by omega⟩
    cases k with
    | zero =>
      cases hps
      have := h.1 ps' (List.mem_of_getElem? hps')
      simp [ht, hmem] at this
    | succ k => exact ih h.2 k k' (by omega) ps ps' hps hps' t ht hmem

variable [Scalar α]

omit [Scalar α] in
theorem Chunk.flat {set : List Reg} {insts : List (Inst α)} {ps : List (Piece α)}
    (h : Chunk set insts ps) :
    ∀ inst ∈ insts, inst.iterations? = none := by
  induction h with
  | store _ _ => simp [Inst.iterations?]
  | load _ _ ih => exact List.forall_mem_cons.mpr ⟨rfl, ih⟩
  | binary _ _ _ ih => exact List.forall_mem_cons.mpr ⟨rfl, ih⟩

omit [Scalar α] in
theorem Chunk.pieces_in {set : List Reg} {insts : List (Inst α)} {ps : List (Piece α)}
    (h : Chunk set insts ps) :
    (∀ inst ∈ insts, ∀ v, Operand.imm v ∈ inst.operands → v ∈ S) → ∀ p ∈ ps, p.In S := by
  have hslot : ∀ {set : List Reg} {x : Operand α} {s : Slot α}, slot? set x = some s →
      (∀ v, x = .imm v → v ∈ S) → s.In S := by
    intro set x s hs hx
    rcases slot?_eq_some hs with ⟨v, rfl, rfl⟩ | ⟨r, p, -, rfl, -⟩
    · exact hx v rfl
    · trivial
  induction h with
  | store _ slot =>
    intro hS
    simp only [List.mem_singleton, forall_eq] at hS ⊢
    exact hslot slot fun v hv => hS v (by simp [Inst.operands, hv])
  | load _ _ ih =>
    intro hS
    exact List.forall_mem_cons.mpr ⟨trivial, ih (List.forall_mem_cons.mp hS).2⟩
  | binary left right _ ih =>
    intro hS
    obtain ⟨hfirst, hS⟩ := List.forall_mem_cons.mp hS
    exact List.forall_mem_cons.mpr ⟨⟨hslot left fun v hv => hfirst v (by simp [Inst.operands, hv]),
      hslot right fun v hv => hfirst v (by simp [Inst.operands, hv])⟩, ih hS⟩

theorem length_addresses_of_alike {first : List (Piece α)} :
    ∀ {ps : List (Piece α)}, first.length = ps.length →
    (List.zipWith Piece.alike ps first).all id = true →
    (addresses first).length = (addresses ps).length := by
  induction first with
  | nil =>
    intro ps hl _
    rw [List.length_eq_zero_iff.mp hl.symm]
  | cons f fs ih =>
    intro ps hl ha
    cases ps with
    | nil => cases hl
    | cons p ps =>
      simp only [List.zipWith_cons_cons, List.all_cons, id_eq, Bool.and_eq_true] at ha
      have hrest := ih (Nat.succ.inj hl) ha.2
      cases f <;> cases p <;> simp only [Piece.alike, Bool.false_eq_true, false_and] at ha
      all_goals simpa [addresses, Piece.address?, List.filterMap_cons] using hrest

theorem strides?_eq_some {chunks : List (List (Piece α))} (h : strides? chunks = some steps) :
    ∃ first, chunks.head? = some first ∧ Steps steps ∧ steps.length = (addresses first).length ∧
      (∀ (k : Nat) (ps : List (Piece α)), chunks[k]? = some ps → fits first steps ps k = true) ∧
      isIndependent chunks = true := by
  unfold strides? at h
  split at h
  · rename_i first second rest
    dsimp only at h
    split at h
    · rename_i hc
      cases h
      simp only [Bool.and_eq_true, List.all_eq_true, Bool.or_eq_true, beq_iff_eq] at hc
      obtain ⟨⟨⟨hs, hlast⟩, hfits⟩, hind⟩ := hc
      have hsecond := hfits (second, 1) (List.mem_zipIdx_iff_getElem?.mpr rfl)
      simp only [fits, Bool.and_eq_true, beq_iff_eq] at hsecond
      have hlen := length_addresses_of_alike hsecond.1.1 hsecond.1.2
      refine ⟨first, rfl, ⟨hs, hlast⟩, by simp [strides, hlen], fun k ps hps => ?_, hind⟩
      exact hfits (ps, k) (List.mem_zipIdx_iff_getElem?.mpr hps)
    · cases h
  · cases h

theorem bundle?_eq_some {uses : RegMap Nat} {items : List (Item α)} {code : Block α} {count : Nat}
    (hgood : ∀ item ∈ items, item.Good uses) (h : bundle? w next items = some (code, count)) :
    w ≤ items.length ∧ ∃ steps first chunks,
      List.Forall₂ (fun item ps => Chunk [] (Item.body item) ps ∧ isClosed uses item.body = true)
        (items.take w) chunks ∧
      chunks.head? = some first ∧ Steps steps ∧ steps.length = (addresses first).length ∧
      (∀ (k : Nat) (ps : List (Piece α)), chunks[k]? = some ps → fits first steps ps k = true) ∧
      isIndependent chunks = true ∧ code = emit next w 0 first steps ∧
      count = first.length - 1 := by
  simp only [bundle?, Option.bind_eq_bind, Option.bind_eq_some_iff, Option.guard_eq_some',
    Option.pure_def, Option.some.injEq, Prod.mk.injEq] at h
  obtain ⟨-, hle, chunks, hchunks, steps, hsteps, first, hfirst, rfl, rfl⟩ := h
  obtain ⟨first', hfirst', hmoves, hlen, hfits, hind⟩ := strides?_eq_some hsteps
  rw [hfirst] at hfirst'
  cases hfirst'
  refine ⟨hle, steps, first, chunks, ?_, hfirst, hmoves, hlen, hfits, hind, rfl, rfl⟩
  exact forall₂_imp_of_mem (forall₂_of_mapM_eq_some hchunks) fun item hi ps hps =>
    (hgood item (List.mem_of_mem_take hi)).chunk hps

/-- What is packed can be packed, given what is known of chunks and a set that their numbers are
in. -/
theorem bundle_of_bundle? {N : Set α} (hN : Distinct N) {uses : RegMap Nat} {items : List (Item α)}
    {code : Block α} {count : Nat} (hgood : ∀ item ∈ items, item.Good uses)
    (hplain : ∀ item ∈ items, ∀ ps, Chunk [] (Item.body item) ps →
      (∀ inst ∈ item.body, inst.Plain context S info none) ∧ ∀ p ∈ ps, p.In N)
    (hnodup : ∀ item ∈ items, (Block.targets item.body).Nodup)
    (h : bundle? w next items = some (code, count)) :
    w ≤ items.length ∧ ∃ steps first chunks,
    Bundle context S info steps first ((items.take w).map Item.body) chunks ∧
      code = emit next w 0 first steps ∧ count = first.length - 1 := by
  obtain ⟨hle, steps, first, chunks, hchunk, hfirst, hmoves, hlen, hfits, hind, rfl, rfl⟩ :=
    bundle?_eq_some hgood h
  have hmem : ∀ item ∈ items.take w, item ∈ items := fun item hi => List.mem_of_mem_take hi
  have hin : ∀ ps ∈ chunks, ∀ p ∈ ps, p.In N := by
    intro ps hps
    obtain ⟨item, hi, hc, -⟩ := (forall₂_exists_of_mem hchunk).2 ps hps
    exact (hplain item (hmem item hi) ps hc).2
  refine ⟨hle, steps, first, chunks, ⟨?_, ?_, ?_, hfirst, hmoves, fun k ps hps => ?_,
    independent_of_isIndependent hind⟩, rfl, rfl⟩
  · rw [List.forall₂_map_left_iff]
    exact hchunk.imp fun _ _ h => h.1
  · intro body hb
    obtain ⟨item, hi, rfl⟩ := List.mem_map.mp hb
    obtain ⟨ps, -, hc, -⟩ := (forall₂_exists_of_mem hchunk).1 item hi
    exact (hplain item (hmem item hi) ps hc).1
  · intro body hb
    obtain ⟨item, hi, rfl⟩ := List.mem_map.mp hb
    exact hnodup item (hmem item hi)
  · exact aligned_of_fits hN (hfits k ps hps) hlen (hin first (List.mem_of_mem_head? hfirst))
      (hin ps (List.mem_of_getElem? hps))

end Pack

section Packs

variable [Scalar α] {context : Context α} {S : Set α} {info : Reg → Info α} {V W : Set Reg}
    {bound : Nat}

omit [Scalar α] in
theorem exists_info_bundle (info : Reg → Info α) (bound : Nat) {w : Nat} (hw : w ≠ 0)
    (rs : List Reg) :
    ∃ info' : Reg → Info α, (∀ r : Nat, r < bound → info' r = info r) ∧
    Carries info info' bound w rs := by
  refine ⟨fun r => if r < bound then info r else ⟨w, (info (rs.getD (r - bound) 0)).numbers, hw⟩,
    fun r hr => ?_, fun p r hp => ?_⟩
  · simp only [if_pos hr]
  · have hn : ¬bound + p < bound := by omega
    simp [hn, List.getD_eq_getElem?_getD, hp]

namespace Pack

theorem Bundle.swaps {w : Nat} {steps : List Int} {head : List (Piece α)} {bodies : List (Block α)}
    {chunks : List (List (Piece α))} (h : Bundle context S info steps head bodies chunks)
    (rel : (String → Exec α Unit) → (String → Exec α Unit) → Prop) (hw : bodies.length = w)
    (hw0 : w ≠ 0) (hb : ∀ r : Nat, r ∈ Block.targets bodies.flatten → r < bound) :
    Swaps rel context S info bound (head.length - 1) bodies.flatten
      (emit bound w 0 head steps) := by
  obtain ⟨body, tail, hbodies, hchunk⟩ := h.exists_head
  obtain ⟨info₁, hinfo₁, hcarries⟩ := exists_info_bundle info bound hw0 (Block.targets body)
  have hinfo : ∀ body rest, bodies = body :: rest →
      Carries info info₁ bound w (Block.targets body) := by
    rintro body' tail' he
    rw [hbodies] at he
    cases he
    exact hcarries
  have hemit := h.targets_emit (w := w) bound
  have hnew : ∀ r : Nat, r ∈ Block.targets (emit bound w 0 head steps) →
      bound ≤ r ∧ r < bound + (head.length - 1) := by
    intro r hr
    rw [hemit, List.mem_range'_1] at hr
    exact hr
  refine ⟨⟨info₁, hinfo₁, fun inst hi => Inst.tame_of_plain (h.plain_emit hw hw0 hinfo inst hi)⟩,
    h.scoped_emit bound ∅, fun r hr => Or.inr (hnew r hr), hemit ▸ List.nodup_range', ?_, ?_⟩
  · intro r hr hr'
    have hold : r ∈ Block.targets bodies.flatten :=
      (Block.mem_or_mem_targets hr).resolve_left (by simp)
    have hmem : r ∈ Block.targets (emit bound w 0 head steps) :=
      (Block.mem_or_mem_targets hr').resolve_left (by simp)
    exact absurd (hb r hold) (Nat.not_lt.mpr (hnew r hmem).1)
  · intro call call' _ name f g m hm
    obtain ⟨f', g', m', hx, hy, hm'⟩ := h.ends hw hw0 hinfo call call' name f g m hm
    exact Follows.of_ends hx hy ⟨rfl, hm'⟩

omit [Scalar α] in
theorem exists_around {items : List (Item α)} {item : Item α} (hi : item ∈ items) :
    ∃ front back : Block α, items.flatMap Item.body = front ++ item.body ++ back := by
  obtain ⟨front, back, rfl⟩ := List.append_of_mem hi
  exact ⟨front.flatMap Item.body, back.flatMap Item.body, by simp⟩

omit [Scalar α] in
theorem nodup_targets_body {items : List (Item α)}
    (h : (Block.targets (items.flatMap Item.body)).Nodup) :
    ∀ item ∈ items, (Block.targets item.body).Nodup := by
  intro item hi
  obtain ⟨front, back, he⟩ := exists_around hi
  rw [he, Block.targets_append, Block.targets_append] at h
  exact (List.nodup_append.mp (List.nodup_append.mp h).1).2.1

omit [Scalar α] in
theorem flatMap_take_drop (w : Nat) (items : List (Item α)) :
    items.flatMap Item.body = ((items.take w).map Item.body).flatten ++
      (items.drop w).flatMap Item.body := by
  rw [← List.flatMap_def, ← List.flatMap_append, List.take_append_drop]

/-- Nothing behind a bundle reads what its chunks set. -/
theorem not_mem_uses_of_bundle? {w : Nat} {uses : RegMap Nat} {items : List (Item α)}
    {code : Block α} {count : Nat} (hgood : ∀ item ∈ items, item.Good uses)
    (hcount : ∀ r, (Block.uses (items.flatMap Item.body)).count r ≤ (uses.get? r).getD 0)
    (hb : bundle? w bound items = some (code, count)) {r : Reg}
    (hr : r ∈ Block.targets ((items.take w).map Item.body).flatten) :
    r ∉ Block.uses ((items.drop w).flatMap Item.body) := by
  intro hu
  obtain ⟨-, -, -, chunks, hchunks, -⟩ := bundle?_eq_some hgood hb
  obtain ⟨inst, hinst, hr⟩ := Block.mem_targets.mp hr
  obtain ⟨body, hbody, hinst⟩ := List.mem_flatten.mp hinst
  obtain ⟨i, hi, rfl⟩ := List.mem_map.mp hbody
  obtain ⟨ps, -, hchunk, hclosed⟩ := (forall₂_exists_of_mem hchunks).1 i hi
  have ht : r ∈ Block.targets i.body := Block.mem_targets.mpr ⟨inst, hinst, hr⟩
  rw [Block.targets_of_flat hchunk.flat] at ht
  have hall := List.all_eq_true.mp hclosed r ht
  obtain ⟨front, back, he⟩ := exists_around hi
  have hle := hcount r
  rw [flatMap_take_drop w, Block.uses_append, List.count_append, ← List.flatMap_def, he] at hle
  simp only [beq_iff_eq, Block.uses_append, List.count_append] at hall hle
  have hpos := List.count_pos_iff.mpr hu
  omega

section Induction

variable {w : Nat} {uses : RegMap Nat} {motive : Reg → Block α → Block α → Reg → Prop}
  (nil : ∀ next, motive next [] [] next)
  (keep : ∀ {next next' : Reg} {first rest new : Block α}, motive next rest new next' →
    motive next (first ++ rest) (first ++ new) next')
  (bundle : ∀ {next next' : Reg} {count : Nat} {items : List (Item α)} {code new : Block α},
    (∀ item ∈ items, item.Good uses) → bundle? w next items = some (code, count) →
    (∀ r ∈ Block.targets ((items.take w).map Item.body).flatten,
      r ∉ Block.uses ((items.drop w).flatMap Item.body)) →
    motive (next + count) ((items.drop w).flatMap Item.body) new next' →
    motive next (((items.take w).map Item.body).flatten ++ (items.drop w).flatMap Item.body)
      (code ++ new) next')

include nil keep bundle

/-- What goes from code and what it is packed to over to the same with one item in front, or with
the chunks of a bundle in front of the one and the bundle in front of the other, holds of all items
and what they are packed to. -/
theorem pack_induction (hw : w ≠ 0) (items : List (Item α)) : ∀ (skip : Nat) (next : Reg),
    (∀ item ∈ items, item.Good uses) →
    (∀ r, (Block.uses ((items.drop skip).flatMap Item.body)).count r ≤ (uses.get? r).getD 0) →
    motive next ((items.drop skip).flatMap Item.body) (pack w skip next items).1
      (pack w skip next items).2.1 := by
  -- for any number of items to leave out, since behind a bundle those are left out that it covers
  induction items with
  | nil =>
    intro skip next _ _
    rw [List.drop_nil]
    cases skip <;> exact nil next
  | cons item items ih =>
    intro skip next hgood hcount
    have hbehind : ∀ item ∈ items, item.Good uses := fun i hi => hgood i (List.mem_cons_of_mem _ hi)
    cases skip with
    | succ skip => exact ih skip next hbehind hcount
    | zero =>
      rw [List.drop_zero] at hcount ⊢
      have hrest : ∀ {front back : Block α}, (item :: items).flatMap Item.body = front ++ back →
          ∀ r, (Block.uses back).count r ≤ (uses.get? r).getD 0 := by
        intro front back he r
        have := hcount r
        rw [he, Block.uses_append, List.count_append] at this
        omega
      simp only [pack]
      cases hb : bundle? w next (item :: items) with
      | none => exact keep (ih 0 next hbehind (hrest List.flatMap_cons))
      | some made =>
        obtain ⟨code, count⟩ := made
        have hdead := fun r => not_mem_uses_of_bundle? hgood hcount hb (r := r)
        have hsplit := flatMap_take_drop w (item :: items)
        rw [hsplit]
        refine bundle hgood hb hdead ?_
        rw [drop_cons_of_ne_zero hw] at hsplit ⊢
        exact ih (w - 1) (next + count) hbehind (hrest hsplit)

theorem pack_split_induction (hw : w ≠ 0) {body : Block α}
    (huses : RegMap.tally (Block.uses body) = uses) (next : Reg) :
    motive next body (pack w 0 next (split uses [] body)).1
      (pack w 0 next (split uses [] body)).2.1 := by
  have hsplit := flatMap_split uses body []
  have h := pack_induction nil keep bundle hw (split uses [] body) 0 next
    (good_split uses body [] (by simp)) fun r => by
      rw [List.drop_zero, hsplit, ← huses, RegMap.getD_tally]
      exact Nat.le_refl _
  rwa [List.drop_zero, hsplit] at h

end Induction

theorem splices_pack (hS : Distinct S) {w : Nat} (hw : w ≠ 0) (body : Block α) (next : Reg) :
    Spliceable context S info V W next body →
    Splices (CallsFollow (Memory.Same context.segments)) context S info V W next
      (pack w 0 next (split (RegMap.tally (Block.uses body)) [] body)).2.1 body
      (pack w 0 next (split (RegMap.tally (Block.uses body)) [] body)).1 := by
  revert info V W
  refine pack_split_induction (motive := fun next old new next' =>
    ∀ {info : Reg → Info α} {V W : Set Reg}, Spliceable context S info V W next old →
    Splices (CallsFollow (Memory.Same context.segments)) context S info V W next next' old new) ?_
    ?_ ?_ hw rfl next
  · exact fun _ _ _ _ _ => Splices.nil
  · exact fun ih _ _ _ h => Splices.keep (fun _ _ hcall => hcall) h (ih h.after)
  · intro next next' count items code new hgood hb hdead ih info V W h
    have hplain : ∀ i ∈ items, ∀ ps, Chunk [] (Item.body i) ps →
        (∀ inst ∈ i.body, inst.Plain context S info none) ∧ ∀ p ∈ ps, p.In S := by
      intro i hi ps hc
      have hp : ∀ inst ∈ i.body, inst.Plain context S info none := fun inst hinst =>
        Inst.plain_of_tame (h.tame inst (flatMap_take_drop w items ▸ List.mem_flatMap.mpr
          ⟨i, hi, hinst⟩)) (hc.flat inst hinst)
      exact ⟨hp, hc.pieces_in fun inst hinst _ hv => (hp inst hinst).mem_of_imm hv⟩
    have hnodup := h.nodup
    rw [← flatMap_take_drop w items] at hnodup
    obtain ⟨hle, steps, first, chunks, hbundle, rfl, rfl⟩ := bundle_of_bundle? hS hgood hplain
      (nodup_targets_body hnodup) hb
    have hswaps := hbundle.swaps (CallsFollow (Memory.Same context.segments))
      (by simpa using hle) hw fun _ hr => h.left.target_lt hr
    exact Splices.splice h hswaps
      (fun r hr => hdead r ((Block.mem_or_mem_targets hr).resolve_left (by simp))) fun _ _ _ => ih

end Pack

/-- Packing chunks keeps routines tame and does not change what they do. -/
theorem Routine.packChunks_tame (hS : Distinct S) {r : Routine α} (h : r.Tame context S) (w : Nat) :
    (r.packChunks w).1.Tame context S ∧
    r.Imitates (Memory.Same context.segments) (r.packChunks w).1 := by
  unfold packChunks
  split
  · exact ⟨h, h.imitates_self⟩
  · rename_i hw
    obtain ⟨ht, hf⟩ := h.splice r.counted_sync { r with body := _, nextReg := _ } fun info hi =>
      ⟨_, splices_pack hS (w := w) (by omega) r.body r.sync.nextReg hi⟩
    exact ⟨ht, rfl, hf⟩

end Packs
end StreamStats
