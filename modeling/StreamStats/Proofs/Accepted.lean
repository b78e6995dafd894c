import StreamStats.Proofs.Folding
import StreamStats.Proofs.Sweeping

/-! Code that the checker accepts, rewritten. Unlike code that comes out of a circuit, its loops may
read registers from before the loop and its indices may run over words, so the checker's own
conditions are what has to be kept. Code left out takes nothing away that is still read, and folding
replaces an operand only by one in scope that has as many lanes or a single one. -/

namespace StreamStats

open Check

variable {α : Type} {context context' : Context α}

namespace Routine.Accepted

variable {r : Routine α}

theorem thin {U : Set Reg} {D : Set Nat} {body : Block α} (h : r.Accepted context)
    (ht : Thins U D r.body body) :
    Routine.Accepted context { r with body } := by
  obtain ⟨lanes, hl⟩ := h.admitted
  exact ⟨⟨lanes, ht.each (fun hp => hp) hl⟩, ht.scope h.reads (by simp),
    ht.targets_sublist.nodup h.nodup⟩

theorem sweepBlock (r : Routine α) (body : Block α) (h : Routine.Accepted context { r with body }) :
    Routine.Accepted context { r with body := Block.sweep body } := by
  induction body using Block.sweep.induct with
  | case1 body next hlt ih =>
    have hthin : Thins _ ∅ body next := Block.thins_prune fun r hr => by simpa using hr
    rw [Block.sweep, if_pos hlt]
    exact ih (h.thin hthin)
  | case2 body next hge => rwa [Block.sweep, if_neg hge]

theorem sweep (h : r.Accepted context) : r.sweep.Accepted context := sweepBlock r r.body h

theorem dropStores {dead : Nat → Bool} (h : r.Accepted context)
    (hr : ∀ s ∈ Block.reads r.body, dead s = false) :
    (r.dropStores dead).Accepted context := by
  unfold Routine.dropStores
  dsimp only
  split
  · exact (h.thin (Block.thins_dropStores hr)).sweep
  · exact h

end Routine.Accepted

namespace Known

variable {k : Known α} {info : Reg → Info α} {entered : Operand α → Operand α} {V W : Set Reg}
    {r : Reg} {ahead : List Reg}

/-- Operands of a block may have been looked up before, when the loops around were entered: those in
scope are unchanged or already what they are known to stand for. Registers of the new code stand for
nothing else. -/
structure Enters (k : Known α) (entered : Operand α → Operand α) (V W : Set Reg)
    (ahead : List Reg) : Prop where
  kept : ∀ r ∈ W, k.get? r = none
  scope : ∀ r ∈ V, entered (.reg r) = .reg r ∨
    (entered (.reg r)).Reads W ∧ entered (.reg r) = k.resolve (.reg r)
  fresh : ∀ r ∈ ahead, entered (.reg r) = .reg r
  imm : ∀ v, entered (.imm v) = .imm v

theorem Enters.resolve_eq (h : k.Enters entered V W ahead) {x : Operand α} (hx : x.Reads V) :
    k.resolve (entered x) = k.resolve x := by
  cases x with
  | imm v => rw [h.imm]
  | reg r =>
    rcases h.scope r hx with he | ⟨hr, he⟩
    · rw [he]
    · rw [← he]
      cases hy : entered (.reg r) with
      | imm v => rfl
      | reg r' =>
        rw [hy] at hr
        exact resolve_of_none (h.kept r' hr)

theorem Enters.define (h : k.Enters entered V W (r :: ahead)) (hk : k.get? r = none) :
    k.Enters entered {r' | r' ∈ V ∨ some r = some r'} {r' | r' ∈ W ∨ some r = some r'} ahead := by
  refine ⟨?_, ?_, fun r' hr' => h.fresh r' (List.mem_cons_of_mem _ hr'), h.imm⟩
  · rintro r' (hr' | hr')
    · exact h.kept r' hr'
    · cases hr'
      exact hk
  · rintro r' (hr' | hr')
    · exact (h.scope r' hr').imp_right fun he => ⟨he.1.mono fun _ => Or.inl, he.2⟩
    · cases hr'
      exact Or.inl (h.fresh r List.mem_cons_self)

theorem Enters.learn (h : k.Enters entered V W (r :: ahead)) (hk : k.Fits info V W (r :: ahead))
    (x : Operand α) :
    Known.Enters (k.set r x) entered {r' | r' ∈ V ∨ some r = some r'} W ahead := by
  refine ⟨fun r' hr' => ?_, ?_, fun r' hr' => h.fresh r' (List.mem_cons_of_mem _ hr'), h.imm⟩
  · have hne : r' ≠ r := by
      rintro rfl
      exact (hk.fresh r' List.mem_cons_self).2 hr'
    rw [RegMap.get?_set, if_neg hne]
    exact h.kept r' hr'
  · rintro r' (hr' | hr')
    · have hne : r' ≠ r := fun he => hk.not_mem_ahead hr' (he ▸ List.mem_cons_self)
      rw [resolve_set_of_ne hne]
      exact h.scope r' hr'
    · cases hr'
      exact Or.inl (h.fresh r List.mem_cons_self)

theorem Enters.inside (h : k.Enters entered V W ahead) (hk : k.Fits info V W ahead) :
    k.Enters (fun x => k.resolve (entered x)) V W ahead := by
  refine ⟨h.kept, fun r hr => Or.inr ?_, fun r hr => ?_, fun v => by rw [h.imm]; rfl⟩
  · rw [h.resolve_eq (x := .reg r) hr]
    exact ⟨(hk.resolve r hr).1, rfl⟩
  · rw [h.fresh r hr]
    exact resolve_of_none (hk.fresh r hr).1

theorem Fits.behind {k' : Known α} {inside : List Reg} (hk : k.Fits info V W (inside ++ ahead))
    (hs : ∀ r ∉ inside, k'.get? r = k.get? r) (hd : ∀ r ∈ inside, r ∉ ahead) :
    k'.Fits info V W ahead ∧
      ∀ entered : Operand α → Operand α, k.Enters entered V W (inside ++ ahead) →
      k'.Enters entered V W ahead := by
  have hresolve : ∀ r ∈ V, k'.resolve (.reg r) = k.resolve (.reg r) := fun _ => hk.resolve_behind hs
  refine ⟨⟨fun r hr => ?_, fun r hr => ?_⟩, fun entered h =>
    ⟨fun r hr => ?_, fun r hr => ?_, fun r hr => ?_, h.imm⟩⟩
  · rw [hresolve r hr]
    exact hk.resolve r hr
  · rw [hs r fun hi => hd r hi hr]
    exact hk.fresh r (List.mem_append_right _ hr)
  · rw [hs r fun hi => (hk.fresh r (List.mem_append_left _ hi)).2 hr]
    exact h.kept r hr
  · rw [hresolve r hr]
    exact h.scope r hr
  · exact h.fresh r (List.mem_append_right _ hr)

end Known

/-- Code and what it is folded to, as far as the checker looks at it. -/
structure FoldsAs (context : Context α) (info : Reg → Info α) (shape : Option Shape)
    (entered : Operand α → Operand α) (V W : Set Reg) (ahead : List Reg) (k : Known α)
    (old : Block α) (new : Block α × Known α) : Prop where
  admitted :
  Block.Each (fun shape inst => inst.Admitted context (fun r => (info r).lanes) shape) shape new.1
  reads : Block.Scoped false W new.1
  targets : (Block.targets new.1).Sublist (Block.targets old)
  fits : new.2.Fits info (Block.define old V) (Block.define new.1 W) ahead
  enters : new.2.Enters entered (Block.define old V) (Block.define new.1 W) ahead
  unchanged : ∀ r ∉ Block.targets old, new.2.get? r = k.get? r

section Folding

variable {info : Reg → Info α} {shape : Option Shape} {entered : Operand α → Operand α}
    {V W : Set Reg} {ahead : List Reg} {k : Known α}

theorem FoldsAs.nil (hk : k.Fits info V W ahead) (he : k.Enters entered V W ahead) :
    FoldsAs context info shape entered V W ahead k [] ([], k) :=
  ⟨trivial, trivial, .slnil, hk, he, fun _ _ => rfl⟩

theorem FoldsAs.append {old old' : Block α} {new new' : Block α × Known α}
    (h : FoldsAs context info shape entered V W (Block.targets old' ++ ahead) k old new)
    (h' : FoldsAs context info shape entered (Block.define old V) (Block.define new.1 W) ahead new.2
      old' new') :
    FoldsAs context info shape entered V W ahead k (old ++ old') (new.1 ++ new'.1, new'.2) := by
  refine ⟨Block.each_append.mpr ⟨h.admitted, h'.admitted⟩,
    Block.scoped_append.mpr ⟨h.reads, h'.reads⟩, ?_, ?_, ?_, ?_⟩
  · simp only [Block.targets_append]
    exact h.targets.append h'.targets
  · simpa only [Block.define_append] using h'.fits
  · simpa only [Block.define_append] using h'.enters
  · intro r hr
    rw [Block.targets_append, List.mem_append, not_or] at hr
    rw [h'.unchanged r hr.2, h.unchanged r hr.1]

theorem FoldsAs.keep {old new : Inst α} (hk : k.Fits info V W ahead)
    (he : k.Enters entered V W ahead)
    (hp : new.Each (fun shape inst => inst.Admitted context (fun r => (info r).lanes) shape) shape)
    (hr : new.Scoped false W) (hold : old.target? = none) (hnew : new.target? = none)
    (ht : new.targets.Sublist old.targets) :
    FoldsAs context info shape entered V W ahead k [old] ([new], k) := by
  have hd : ∀ {inst : Inst α} (V : Set Reg), inst.target? = none → Block.define [inst] V = V := by
    intro inst V hi
    simp [Inst.define, hi]
  refine ⟨⟨hp, trivial⟩, ⟨hr, trivial⟩, by simpa [Block.targets] using ht, ?_, ?_, fun _ _ => rfl⟩
  · rwa [hd V hold, hd W hnew]
  · rwa [hd V hold, hd W hnew]

/-- An instruction goes if an operand stands for what it sets. -/
theorem FoldsAs.learn {inst : Inst α} {dst : Reg} {x : Operand α}
    (hk : k.Fits info V W (dst :: ahead)) (he : k.Enters entered V W (dst :: ahead))
    (hdst : inst.target? = some dst) (hr : dst ∉ ahead) (hx : x.Reads W)
    (hl : x.lanes info = 1 ∨ x.lanes info = (info dst).lanes)
    (hn : x.numbers info ⊆ (info dst).numbers) :
    FoldsAs context info shape entered V W ahead k [inst] ([], k.set dst x) := by
  have htargets : Block.targets [inst] = [dst] := by
    simp [Block.targets, Inst.targets_of_target? hdst]
  have hdefine : Block.define [inst] V = {r | r ∈ V ∨ some dst = some r} := by
    simp [Inst.define, hdst]
  refine ⟨trivial, trivial, by simp [Block.targets], ?_, ?_, fun r hr' => ?_⟩
  · rw [hdefine]
    exact hk.learn hr hx hl hn
  · rw [hdefine]
    exact he.learn hk _
  · rw [RegMap.get?_set, if_neg (by simpa [htargets] using hr')]

variable [Scalar α]

mutual

theorem Inst.foldsAs (hu : ∀ r, (info r).numbers = Set.univ) :
    ∀ {inst : Inst α} {shape : Option Shape} {entered : Operand α → Operand α} {V W : Set Reg}
      {ahead : List Reg} {k : Known α},
    inst.Each (fun shape inst => inst.Admitted context (fun r => (info r).lanes) shape) shape →
    inst.Scoped false V → inst.targets.Nodup → (∀ r ∈ inst.targets, r ∉ ahead) →
    k.Fits info V W (inst.targets ++ ahead) → k.Enters entered V W (inst.targets ++ ahead) →
    FoldsAs context info shape entered V W ahead k [inst] (inst.fold context.segments entered k)
  | .load dst src n, shape, entered, V, W, ahead, k, hp, _, _, ha, hk, he => by
    have hdst := ha dst (by simp [Inst.targets])
    simp only [Inst.fold]
    cases constantAt? context.segments src with
    | none => exact ⟨⟨hp, trivial⟩, ⟨trivial, trivial⟩, .refl _, hk.define hdst,
        he.define (hk.fresh dst List.mem_cons_self).1, fun _ _ => rfl⟩
    | some v =>
      exact .learn hk he rfl hdst trivial (Or.inl rfl) (by simp [hu])
  | .store dst x n, shape, entered, V, W, ahead, k, hp, hs, _, _, hk, he => by
    obtain ⟨hxr, hxl, -⟩ := hk.operand hs
    simp only [Inst.fold, he.resolve_eq hs]
    exact FoldsAs.keep hk he ⟨hp.1, hxl.elim Or.inl fun h => by
      have := hp.2
      unfold Operand.lanes at h
      rwa [h]⟩ hxr rfl rfl (.refl _)
  | .binary dst op x y, shape, entered, V, W, ahead, k, hp, hs, _, ha, hk, he => by
    have hdst := ha dst (by simp [Inst.targets])
    obtain ⟨hw, hmax⟩ : (x.lanes info = y.lanes info ∨ x.lanes info = 1 ∨ y.lanes info = 1) ∧
      (max (x.lanes info) (y.lanes info) = 1 ∨
        max (x.lanes info) (y.lanes info) = (info dst).lanes) := hp
    obtain ⟨hxr, hxl, -⟩ := hk.operand hs.1
    obtain ⟨hyr, hyl, -⟩ := hk.operand hs.2
    have hx0 := Operand.lanes_ne_zero info x
    have hy0 := Operand.lanes_ne_zero info y
    simp only [Inst.fold, he.resolve_eq hs.1, he.resolve_eq hs.2]
    cases hz : op.simplify (k.resolve x) (k.resolve y) with
    | none =>
      refine ⟨⟨⟨?_, ?_⟩, trivial⟩, ⟨⟨hxr, hyr⟩, trivial⟩, .refl _, hk.define hdst,
        he.define (hk.fresh dst List.mem_cons_self).1, fun _ _ => rfl⟩
      · show (k.resolve x).lanes info = (k.resolve y).lanes info ∨ (k.resolve x).lanes info = 1 ∨
          (k.resolve y).lanes info = 1
        omega
      · show max ((k.resolve x).lanes info) ((k.resolve y).lanes info) = 1 ∨
          max ((k.resolve x).lanes info) ((k.resolve y).lanes info) = (info dst).lanes
        omega
    | some z =>
      have hzr : z.Reads W ∧ (z.lanes info = 1 ∨ z.lanes info = (info dst).lanes) := by
        rcases Arith.simplify_cases hz with rfl | rfl | ⟨v, w, -, -, rfl⟩
        · exact ⟨hxr, by omega⟩
        · exact ⟨hyr, by omega⟩
        · exact ⟨trivial, Or.inl rfl⟩
      exact .learn hk he rfl hdst hzr.1 hzr.2 (by simp [hu])
  | .call callee, shape, entered, V, W, ahead, k, hp, _, _, _, hk, he => by
    simp only [Inst.fold]
    exact FoldsAs.keep hk he hp trivial rfl rfl (.refl _)
  | .loop trips step parallel body, shape, entered, V, W, ahead, k, hp, hs, hd, ha, hk, he => by
    have hb := Block.foldsAs hu hp.2 (V := V) (by simpa [Inst.Scoped] using hs) hd ha hk
      (he.inside hk)
    simp only [Inst.fold]
    generalize Block.fold context.segments (fun x => k.resolve (entered x)) body k = new at hb
    obtain ⟨hfits, henters⟩ := hk.behind hb.unchanged ha
    have hkeep : FoldsAs context info shape entered V W ahead new.2 [.loop trips step parallel body]
        ([.loop trips step parallel new.1], new.2) :=
      .keep hfits (henters entered he) ⟨hp.1, hb.admitted⟩ (by simpa [Inst.Scoped] using hb.reads)
      rfl rfl hb.targets
    exact ⟨hkeep.admitted, hkeep.reads, hkeep.targets, hkeep.fits, hkeep.enters,
      fun r hr => hb.unchanged r (by simpa [Block.targets, Inst.targets] using hr)⟩

theorem Block.foldsAs (hu : ∀ r, (info r).numbers = Set.univ) :
    ∀ {body : List (Inst α)} {shape : Option Shape} {entered : Operand α → Operand α}
      {V W : Set Reg} {ahead : List Reg} {k : Known α},
    Block.Each (fun shape inst => inst.Admitted context (fun r => (info r).lanes) shape) shape
      body →
    Block.Scoped false V body → (Block.targets body).Nodup → (∀ r ∈ Block.targets body, r ∉ ahead) →
    k.Fits info V W (Block.targets body ++ ahead) →
    k.Enters entered V W (Block.targets body ++ ahead) →
    FoldsAs context info shape entered V W ahead k body (Block.fold context.segments entered body k)
  | [], _, _, _, _, _, _, _, _, _, _, hk, he => FoldsAs.nil hk he
  | inst :: rest, _, _, _, _, ahead, _, hp, hs, hd, ha, hk, he => by
    obtain ⟨hdi, hdr, -⟩ := List.nodup_append.mp hd
    have hi := Inst.foldsAs hu hp.1 hs.1 hdi (Block.not_mem_ahead hd ha)
      (by simpa [Block.targets] using hk) (by simpa [Block.targets] using he)
    exact hi.append (Block.foldsAs hu hp.2 hs.2 hdr (fun r hr => ha r (List.mem_append_right _ hr))
      hi.fits hi.enters)

end

end Folding

theorem Inst.Admitted.positive {lanes : Reg → Nat} {shape : Option Shape} {inst : Inst α}
    (h : inst.Admitted context lanes shape) :
    inst.Admitted context (fun r => max 1 (lanes r)) shape := by
  have hw : ∀ x : Operand α, x.width (fun r => max 1 (lanes r)) = max 1 (x.width lanes) := by
    intro x
    cases x <;> rfl
  cases inst with
  | load dst src n =>
    have h0 := lanes_ne_zero_of_access h.1
    exact ⟨h.1, show n = 1 ∨ n = max 1 (lanes dst) by have := h.2; omega⟩
  | store dst x n =>
    have h0 := lanes_ne_zero_of_access h.1
    exact ⟨h.1, by have := h.2; rw [hw]; omega⟩
  | binary dst op x y =>
    simp only [Admitted, hw] at h ⊢
    omega
  | call _ => exact h
  | loop _ _ _ _ => exact h

/-- Lanes counted for a routine so that none has zero, whatever numbers are held in them. -/
theorem Routine.Accepted.exists_info {r : Routine α} (h : r.Accepted context) :
    ∃ info : Reg → Info α, (∀ r, (info r).numbers = Set.univ) ∧
      Block.Each (fun shape inst => inst.Admitted context (fun r => (info r).lanes) shape) none
        r.body := by
  obtain ⟨lanes, hl⟩ := h.admitted
  exact ⟨fun r => ⟨max 1 (lanes r), Set.univ, by omega⟩, fun _ => rfl, hl.imp fun _ _ hi =>
    hi.positive⟩

namespace Known

variable {info : Reg → Info α} {ahead : List Reg}

@[simp] theorem fits_empty : Fits (RegMap.empty : Known α) info ∅ ∅ ahead := ⟨by simp, by simp⟩

@[simp] theorem enters_empty : Enters (RegMap.empty : Known α) id ∅ ∅ ahead :=
  ⟨by simp, by simp, fun _ _ => rfl, fun _ => rfl⟩

end Known

theorem Routine.Accepted.foldConstants [Scalar α] {r : Routine α} (h : r.Accepted context) :
    (r.foldConstants context.segments).Accepted context := by
  obtain ⟨info, hu, hl⟩ := h.exists_info
  have hf := Block.foldsAs hu hl h.reads h.nodup
    (fun _ _ => List.not_mem_nil) Known.fits_empty Known.enters_empty
  exact ⟨⟨_, hf.admitted⟩, hf.reads, hf.targets.nodup h.nodup⟩

end StreamStats
