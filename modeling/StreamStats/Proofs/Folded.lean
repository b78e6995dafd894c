import StreamStats.Proofs.Doubles
import StreamStats.Proofs.Rewriting
import StreamStats.Proofs.Uses

/-! Folding constants changes nothing that a caller sees, in any code that the checker accepts. What
registers hold may get shorter: one value may come to stand for several lanes of that value. Such
values differ in nothing that is made of them but in their lanes, and not at all where they are
stored. -/

namespace StreamStats

open Exec Check

variable {α : Type}

/-- The same values, or one value in the place of so many lanes of it. -/
def SpreadsTo (ys xs : List α) : Prop := ys = xs ∨ ∃ v n, n ≠ 0 ∧ ys = [v] ∧ xs = List.replicate n v

namespace SpreadsTo

variable {xs xs' ys ys' zs : List α}

@[simp] theorem refl (xs : List α) : SpreadsTo xs xs := Or.inl rfl

theorem replicate {n : Nat} (hn : n ≠ 0) (v : α) : SpreadsTo [v] (List.replicate n v) :=
  Or.inr ⟨v, n, hn, rfl, rfl⟩

theorem eq_of_replicate_eq_singleton {n : Nat} (hn : n ≠ 0) {v w : α}
    (h : List.replicate n v = [w]) : v = w := by
  have hv : v ∈ [w] := h ▸ List.mem_replicate.mpr ⟨hn, rfl⟩
  exact List.mem_singleton.mp hv

theorem trans (h : SpreadsTo zs ys) (h' : SpreadsTo ys xs) : SpreadsTo zs xs := by
  obtain rfl | ⟨v, n, hn, rfl, rfl⟩ := h
  · exact h'
  · obtain hxs | ⟨w, k, hk, hw, rfl⟩ := h'
    · exact hxs ▸ .replicate hn v
    · rw [eq_of_replicate_eq_singleton hn hw]
      exact .replicate hk w

theorem store_eq (h : SpreadsTo ys xs) {n : Nat} (hl : xs.length = 1 ∨ xs.length = n)
    (dst : Address) (count : Nat) :
    Exec.store dst count n ys = Exec.store dst count n xs := by
  obtain rfl | ⟨v, k, -, rfl, rfl⟩ := h
  · rfl
  · rw [List.length_replicate] at hl
    rw [store_eq_storeFrom (Or.inl rfl), store_eq_storeFrom (by rwa [List.length_replicate])]
    by_cases hk : k = 1
    · rw [hk, List.replicate_one]
    · have hstretch : stretch n (List.replicate k v) = List.replicate k v :=
        stretch_of_length_ne_one (by rwa [List.length_replicate])
      rw [hstretch, hl.resolve_left hk]
      rfl

end SpreadsTo

namespace Arith

variable [Scalar α] {op : Arith} {xs xs' ys ys' zs : List α}

/-- How lanes come together where they do. -/
theorem lanes_cases (h : op.lanes xs ys = .ok zs) :
    (xs.length = ys.length ∧ zs = List.zipWith op.apply xs ys) ∨
    (∃ x, xs = [x] ∧ zs = ys.map (op.apply x)) ∨ ∃ y, ys = [y] ∧ zs = xs.map (op.apply · y) := by
  unfold lanes at h
  split at h
  · cases h
    exact Or.inl ⟨‹_›, rfl⟩
  · split at h
    · cases h
      exact Or.inr (Or.inl ⟨_, rfl, rfl⟩)
    · cases h
      exact Or.inr (Or.inr ⟨_, rfl, rfl⟩)
    · cases h

theorem lanes_spreads_left (hx : SpreadsTo xs' xs) (h : op.lanes xs ys = .ok zs) :
    ∃ zs', op.lanes xs' ys = .ok zs' ∧ SpreadsTo zs' zs := by
  obtain rfl | ⟨v, n, hn, rfl, rfl⟩ := hx
  · exact ⟨zs, h, .refl zs⟩
  · refine ⟨_, lanes_single_left op v ys, ?_⟩
    rcases lanes_cases h with ⟨hl, rfl⟩ | ⟨x, hx, rfl⟩ | ⟨y, rfl, rfl⟩
    · rw [List.length_replicate] at hl
      exact Or.inl (List.ext_getElem (by simp [hl]) fun i hi hi' => by simp)
    · rw [SpreadsTo.eq_of_replicate_eq_singleton hn hx]
      exact .refl _
    · rw [List.map_replicate]
      exact .replicate hn _

theorem lanes_spreads_right (hy : SpreadsTo ys' ys) (h : op.lanes xs ys = .ok zs) :
    ∃ zs', op.lanes xs ys' = .ok zs' ∧ SpreadsTo zs' zs := by
  obtain rfl | ⟨v, n, hn, rfl, rfl⟩ := hy
  · exact ⟨zs, h, .refl zs⟩
  · refine ⟨_, lanes_single_right op xs v, ?_⟩
    rcases lanes_cases h with ⟨hl, rfl⟩ | ⟨x, rfl, rfl⟩ | ⟨y, hy, rfl⟩
    · rw [List.length_replicate] at hl
      exact Or.inl (List.ext_getElem (by simp [hl]) fun i hi hi' => by simp)
    · rw [List.map_replicate]
      exact .replicate hn _
    · rw [SpreadsTo.eq_of_replicate_eq_singleton hn hy]
      exact .refl _

/-- One value does for lanes of it on either side. -/
theorem lanes_spreads (hx : SpreadsTo xs' xs) (hy : SpreadsTo ys' ys)
    (h : op.lanes xs ys = .ok zs) :
    ∃ zs', op.lanes xs' ys' = .ok zs' ∧ SpreadsTo zs' zs := by
  obtain ⟨ws, hws, hleft⟩ := lanes_spreads_left hx h
  obtain ⟨zs', hzs', hright⟩ := lanes_spreads_right hy hws
  exact ⟨zs', hzs', hright.trans hleft⟩

end Arith

theorem Address.InWords.index_eq {a : Address} (h : a.InWords) (hs : a.stride = 0)
    (count lane : Nat) :
    a.index count lane = a.offset := by
  rw [index_eq_wrap, position_of_stride_zero hs, h.1]

theorem Memory.Fits.load_constant [Scalar α] {segments : Array (Segment α)} {m : Memory α}
    (hm : m.Fits segments) {src : Address} {v : α} (hw : src.InWords)
    (h : constantAt? segments src = some v) (count n : Nat) :
    Exec.load src count n m = .ok (List.replicate n v) m := by
  obtain ⟨s, hs, hstride, hrole, h0, hv⟩ := constantAt?_eq_some h
  have hindex := hw.index_eq hstride count
  have hlt : src.offset.toNat < s.contents.size := (Array.getElem?_eq_some_iff.mp hv).1
  have hholds : m.Holds src count n := by
    intro lane _
    rw [hindex, hm.sizeOf_eq _ s hs, Segment.size]
    omega
  have hvalue : ∀ lane, m.valueAt src count lane = v := by
    intro lane
    simp only [valueAt, value, hindex, hm.constant _ s hs hrole, Option.bind_some, hv,
      Option.getD_some]
  rw [load_of_holds hholds, List.map_congr_left fun lane _ => hvalue lane, List.map_const',
    List.length_range]

/-- Values of which the second spread to the first. -/
def Spreads (o o' : Option (List α)) : Prop := ∃ xs ys, o = some xs ∧ o' = some ys ∧ SpreadsTo ys xs

section Folding

variable {context : Context α} {info : Reg → Info α} {V W : Set Reg} {k : Known α} {f g : Frame α}
    {m : Memory α}

theorem Known.Relates.operand (h : k.Relates Spreads V f g) (name : String)
    (hf : f.Typed (fun r => (info r).lanes) V) {x : Operand α} (hx : x.Reads V) :
    ∃ xs ys, f.read name x = .ok xs ∧ g.read name (k.resolve x) = .ok ys ∧ SpreadsTo ys xs ∧
    xs ≠ [] ∧ (xs.length = 1 ∨ xs.length = x.lanes info) := by
  obtain ⟨xs, hxs, hne, hl⟩ := hf.read hx name
  refine (show ∃ ys, g.read name (k.resolve x) = .ok ys ∧
    SpreadsTo ys xs from ?_).elim fun ys hys =>
    ⟨xs, ys, hxs, hys.1, hys.2, hne, hl⟩
  cases x with
  | imm v =>
    cases hxs
    exact ⟨[v], rfl, .refl _⟩
  | reg r =>
    obtain ⟨xs', ys, hxs', hys, hspreads⟩ := h r hx
    rw [Frame.read_eq_ok_iff, Frame.value?, hxs'] at hxs
    cases hxs
    exact ⟨ys, Frame.read_eq_ok_iff.mpr hys, hspreads⟩

variable [Scalar α] {call call' : String → Exec α Unit} {name : String}

mutual

theorem Inst.mirrors_fold [LawfulScalar α] (hu : ∀ r, (info r).numbers = Set.univ)
    (hcall : CallsMirror (.exact context.segments) call call') :
    ∀ {inst : Inst α} {shape : Option Shape} {entered : Operand α → Operand α} {V W : Set Reg}
      {ahead : List Reg} {k : Known α},
    inst.Each (fun shape inst => inst.Admitted context (fun r => (info r).lanes) shape) shape →
    inst.Each Inst.InWords shape → inst.Scoped false V → inst.targets.Nodup →
    (∀ r ∈ inst.targets, r ∉ ahead) → k.Fits info V W (inst.targets ++ ahead) →
    k.Enters entered V W (inst.targets ++ ahead) → ∀ (count : Nat) {f g : Frame α} {m : Memory α},
    f.Typed (fun r => (info r).lanes) V → k.Relates Spreads V f g → m.Fits context.segments →
      Mirrors (.exact context.segments) ((inst.fold context.segments entered k).2.Relates Spreads
        (inst.define V)) (inst.exec call name count f m) (Block.exec call' name count
          (inst.fold context.segments entered k).1 g m)
  | .load dst src n, shape, entered, V, W, ahead, k, hp, hw, _, _, _, hk, _, count, f, g, m, _, hfg,
      hm => by
    simp only [Inst.fold]
    cases hv : constantAt? context.segments src with
    | none =>
      have hload : (Likeness.exact context.segments).memories
          (final (Exec.load src count n m)) := by
        rwa [final_load]
      simp only [Block.exec_singleton, Inst.exec]
      refine (Mirrors.refl hload).bind ?_
      rintro xs _ m' rfl hm'
      exact .ok (hfg.define hk ⟨xs, xs, rfl, rfl, .refl xs⟩) hm'
    | some v =>
      have hn := lanes_ne_zero_of_access hp.1
      simp only [Inst.exec]
      rw [bind_of_ok (hm.load_constant hw hv count n)]
      exact .ok (hfg.learn hk ⟨_, [v], rfl, rfl, .replicate hn v⟩) hm
  | .store dst x n, shape, entered, V, W, ahead, k, hp, _, hs, _, _, hk, he, count, f, g, m, hf,
      hfg, hm => by
    obtain ⟨xs, ys, hxs, hys, hspreads, -, hl⟩ := hfg.operand name hf hs
    have hl : xs.length = 1 ∨ xs.length = n := by
      have := hp.2
      unfold Operand.lanes at hl
      omega
    simp only [Inst.fold, he.resolve_eq hs, Block.exec_singleton, Inst.exec, hxs, hys]
    rw [bind_of_ok (lift_ok_apply xs m), bind_of_ok (lift_ok_apply ys m), hspreads.store_eq hl]
    have hadmitted : Inst.Admitted context (fun r => (info r).lanes) shape (.store dst x n) := hp
    refine (Mirrors.refl (store_keeps hadmitted.keeps_exact hm n xs)).bind ?_
    rintro _ _ m' - hm'
    refine .ok ?_ hm'
    rintro r (hr | hr)
    · exact hfg r hr
    · cases hr
  | .binary dst op x y, shape, entered, V, W, ahead, k, hp, _, hs, _, _, hk, he, count, f, g, m, hf,
      hfg, hm => by
    obtain ⟨xs, xs', hxs, hxs', hxspreads, hx0, hxl⟩ := hfg.operand name hf hs.1
    obtain ⟨ys, ys', hys, hys', hyspreads, hy0, hyl⟩ := hfg.operand name hf hs.2
    have hwidth : xs.length = ys.length ∨ xs.length = 1 ∨ ys.length = 1 := by
      have := hp.1
      unfold Operand.lanes at hxl hyl
      omega
    obtain ⟨zs, hzs, -⟩ := Arith.lanes_eq_ok op hwidth hx0 hy0
    obtain ⟨zs', hzs', hzspreads⟩ := Arith.lanes_spreads hxspreads hyspreads hzs
    simp only [Inst.fold, he.resolve_eq hs.1, he.resolve_eq hs.2, Inst.exec, hxs, hys]
    rw [bind_of_ok (lift_ok_apply xs m), bind_of_ok (lift_ok_apply ys m), hzs,
      bind_of_ok (lift_ok_apply zs m)]
    cases hz : op.simplify (k.resolve x) (k.resolve y) with
    | none =>
      simp only [Block.exec_singleton, Inst.exec, hxs', hys']
      rw [bind_of_ok (lift_ok_apply xs' m), bind_of_ok (lift_ok_apply ys' m), hzs',
        bind_of_ok (lift_ok_apply zs' m)]
      exact .ok (hfg.define hk ⟨zs, zs', rfl, rfl, hzspreads⟩) hm
    | some z =>
      have hvalue := Arith.value?_of_simplify hz (Frame.read_eq_ok_iff.mp hxs')
        (Frame.read_eq_ok_iff.mp hys') hzs'
      exact .ok (hfg.learn hk ⟨zs, zs', rfl, hvalue, hzspreads⟩) hm
  | .call callee, shape, entered, V, W, ahead, k, _, _, _, _, _, _, _, count, f, g, m, hf, hfg,
      hm => by
    simp only [Inst.fold, Block.exec_singleton, Inst.exec]
    refine (hcall callee m hm).bind ?_
    rintro _ _ m' - hm'
    refine .ok ?_ hm'
    rintro r (hr | hr)
    · exact hfg r hr
    · cases hr
  | .loop trips step parallel body, shape, entered, V, W, ahead, k, hp, hw, hs, hd, ha, hk, he,
      count, f, g, m, hf, hfg, hm => by
    have hs : Block.Scoped false V body := by simpa [Inst.Scoped] using hs
    have hfolds := Block.foldsAs hu hp.2 hs hd ha hk (he.inside hk)
    have hresolve : ∀ r ∈ V, _ = k.resolve (.reg r) := fun _ => hk.resolve_behind hfolds.unchanged
    simp only [Inst.fold, Block.exec_singleton, Inst.exec_loop]
    -- rounds agree on what is in scope, and what is known of that was known before
    refine (Mirrors.iterate (P := fun f g => f.Typed (fun r => (info r).lanes) V ∧
      k.Relates Spreads V f g) (fun count f g m hfg hm => ?_) _ 0 ⟨hf, hfg⟩ hm).imp ?_
    · have hround := Block.mirrors_fold hu hcall hp.2 hw.2 hs hd ha hk
        (he.inside hk) count hfg.1 hfg.2 hm
      refine (hround.both (Block.exec_typed hp.2 hs hfg.1) fun _ _ _ => trivial).imp ?_
      rintro f' g' ⟨hfg', hf', -⟩
      refine ⟨hf'.mono (Block.subset_define body V), fun r hr => ?_⟩
      rw [← hresolve r hr]
      exact hfg' r (Block.subset_define body V hr)
    · rintro f' g' ⟨-, hfg'⟩ r (hr | hr)
      · rw [hresolve r hr]
        exact hfg' r hr
      · cases hr

/-- Folded code does alike, where what is known is related to what registers hold. -/
theorem Block.mirrors_fold [LawfulScalar α] (hu : ∀ r, (info r).numbers = Set.univ)
    (hcall : CallsMirror (.exact context.segments) call call') :
    ∀ {body : List (Inst α)} {shape : Option Shape} {entered : Operand α → Operand α}
      {V W : Set Reg} {ahead : List Reg} {k : Known α},
    Block.Each (fun shape inst => inst.Admitted context (fun r => (info r).lanes) shape) shape
      body →
    Block.Each Inst.InWords shape body → Block.Scoped false V body → (Block.targets body).Nodup →
    (∀ r ∈ Block.targets body, r ∉ ahead) → k.Fits info V W (Block.targets body ++ ahead) →
    k.Enters entered V W (Block.targets body ++ ahead) →
    ∀ (count : Nat) {f g : Frame α} {m : Memory α}, f.Typed (fun r => (info r).lanes) V →
    k.Relates Spreads V f g → m.Fits context.segments →
      Mirrors (.exact context.segments)
        ((Block.fold context.segments entered body k).2.Relates Spreads (Block.define body V))
        (Block.exec call name count body f m)
        (Block.exec call' name count (Block.fold context.segments entered body k).1 g m)
  | [], _, _, _, _, _, _, _, _, _, _, _, _, _, _, _, _, _, _, hfg, hm => .ok hfg hm
  | inst :: rest, shape, entered, V, W, ahead, k, hp, hw, hs, hd, ha, hk, he, count, f, g, m, hf,
      hfg, hm => by
    obtain ⟨hdi, hdr, -⟩ := List.nodup_append.mp hd
    have hai := Block.not_mem_ahead hd ha
    have hk : k.Fits info V W (inst.targets ++ (Block.targets rest ++ ahead)) := by
      simpa [Block.targets] using hk
    have he : k.Enters entered V W (inst.targets ++ (Block.targets rest ++ ahead)) := by
      simpa [Block.targets] using he
    have hfolds := Inst.foldsAs hu hp.1 hs.1 hdi hai hk he
    have hfirst := Inst.mirrors_fold hu hcall hp.1 hw.1 hs.1 hdi hai hk he count hf hfg hm
    simp only [Block.fold, Block.exec, Block.exec_append]
    refine (hfirst.both (Inst.exec_typed hp.1 hs.1 hf) fun _ _ _ => trivial).bind ?_
    rintro f' g' m' ⟨hfg', hf', -⟩ hm'
    exact Block.mirrors_fold hu hcall hp.2 hw.2 hs.2 hdr
      (fun r hr => ha r (List.mem_append_right _ hr)) hfolds.fits hfolds.enters count hf' hfg' hm'

end

end Folding

variable [Scalar α] [LawfulScalar α]

/-- A routine that is accepted does alike when its constants are folded. -/
theorem Routine.Accepted.mirrors_foldConstants {context : Context α} {r : Routine α}
    (h : r.Accepted context) (hw : Block.Each Inst.InWords none r.body) :
    r.Mirrors (.exact context.segments) (r.foldConstants context.segments) := by
  obtain ⟨info, hu, hl⟩ := h.exists_info
  refine ⟨rfl, fun call call' hcall m hm => ?_⟩
  refine (Block.mirrors_fold hu hcall hl hw h.reads h.nodup
    (fun _ _ => List.not_mem_nil) Known.fits_empty Known.enters_empty 0 ?_ ?_ hm).imp fun _ _ _ =>
      trivial
  · simp [Frame.Typed]
  · simp [Known.Relates]

namespace Program

/-- The constants of one routine of a checked program can be folded: whatever is done with a
machine, it shows the same. -/
theorem foldedAt_shows {p : Program α} (h : p.check = .ok ()) (hw : p.InWords) (index : Nat)
    (uses : List (Machine.Use α)) :
    (Machine.ofProgram (p.rewriteAt index (·.foldConstants p.segments))).shows uses =
      (Machine.ofProgram p).shows uses := by
  have haccepted := (check_eq_ok_iff_accepted.mp h).2
  refine Machine.shows_rewriteAt haccepted (fun r hr => ?_) uses
  have hr := List.mem_of_getElem? hr
  exact (haccepted r hr).mirrors_foldConstants (hw r hr)

/-- Adds a negative zero in two lanes to a single value and to two, and multiplies in a loop by a
number from before. -/
def diluting : Program Float where
  name := "diluting"
  segments := #[.zeros "input" .input 4, ⟨"constants", .constant, #[-0.0, 1, 3]⟩,
    .zeros "first" .state 2, .zeros "output" .output 4]
  routines := [.ofBody "main" .external [
    .load 0 ⟨1, 0, 0⟩ 2,
    .load 1 (.fixed 1 2) 1,
    .load 2 (.fixed 0 0) 1,
    .binary 3 .add (.reg 2) (.reg 0),
    .store ⟨2, 0, 1⟩ (.reg 3) 2,
    .loop 4 2 true [.load 4 ⟨0, 0, 1⟩ 2, .binary 5 .add (.reg 0) (.reg 4),
      .binary 6 .mul (.reg 5) (.reg 1), .store ⟨3, 0, 1⟩ (.reg 6) 2]]]

/-- Both additions go, and with one of them a lane of what is stored. -/
theorem foldedAt_shows_diluting :
    diluting.check = .ok () ∧ diluting.InWords ∧ diluting.size = 10 ∧
      (diluting.rewriteAt 0 (·.foldConstants diluting.segments)).size = 6 ∧
      ((Machine.ofProgram diluting).run "main" [0, 1, 2, 3]).1 = .ok [0, 3, 6, 9] ∧
      ∀ uses : List (Machine.Use Float),
        (Machine.ofProgram (diluting.rewriteAt 0 (·.foldConstants diluting.segments))).shows uses =
          (Machine.ofProgram diluting).shows uses := by
  have hc : diluting.check = .ok () := by decide +kernel
  have hw : diluting.InWords := by decide +kernel
  exact ⟨hc, hw, by decide +kernel, by decide +kernel, by decide +kernel, foldedAt_shows hc hw 0⟩

end Program
end StreamStats
