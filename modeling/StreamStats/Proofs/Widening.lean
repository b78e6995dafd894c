import StreamStats.Proofs.Folding
import StreamStats.Proofs.Lanes
import StreamStats.Proofs.Splicing
import StreamStats.Transform.Widen

/-! Widening loops changes nothing. A loop that can be widened has single lanes, and no two of its
counts go to one place that is written; so all counts of a round may be taken together. -/

namespace StreamStats

open Exec Check

variable {α : Type}

/-- An instruction of single lanes that writes to a place of its own at every count. -/
def Inst.IsSingle : Inst α → Prop
  | .load _ _ n => n = 1
  | .store dst _ n => n = 1 ∧ dst.stride ≠ 0
  | .binary _ _ _ _ => True
  | .call _ | .loop _ _ _ _ => False

@[simp] theorem Block.isScalar_iff {body : Block α} :
    Block.isScalar body = true ↔ ∀ inst ∈ body, inst.IsSingle := by
  rw [isScalar, List.all_eq_true]
  refine forall₂_congr fun inst _ => ?_
  cases inst <;> simp [Inst.IsSingle]

namespace Inst.IsSingle

variable {inst : Inst α}

theorem spreads_self (h : inst.IsSingle) (k : Nat) : inst.Spreads id k 1 k inst := by
  have hindex : ∀ (a : Address), ∀ lane < 1, a.index k lane = a.index (k + lane) 0 := by
    intro a lane hl
    rw [Nat.lt_one_iff.mp hl]
    rfl
  cases inst with
  | load dst src n =>
    cases h
    exact .load (φ := id) rfl (hindex src)
  | store dst x n =>
    obtain ⟨rfl, -⟩ := h
    have := Spreads.store (φ := id) (x := x) (n := 1) rfl (hindex dst)
    rwa [Operand.rename_id] at this
  | binary dst op x y =>
    have hspread : Spreads id k 1 k (.binary dst op x y)
        (.binary (id dst) op (x.rename id) (y.rename id)) := .binary
    rwa [Operand.rename_id, Operand.rename_id] at hspread
  | call _ => exact h.elim
  | loop _ _ _ _ => exact h.elim

theorem spreads_widen (h : inst.IsSingle) (b w : Nat) : inst.Spreads id b w b (inst.widen w) := by
  have hindex : ∀ (a : Address), ∀ lane < w, a.index b lane = a.index (b + lane) 0 :=
    fun _ _ _ => rfl
  cases inst with
  | load dst src n =>
    cases h
    simp only [widen]
    by_cases hs : src.stride = 0
    · rw [if_pos hs]
      refine .share (φ := id) rfl fun lane _ => ?_
      simp [Address.index, hs]
    · rw [if_neg hs]
      exact .load (φ := id) rfl (hindex src)
  | store dst x n =>
    have := Spreads.store (φ := id) (x := x) (n := n) rfl (hindex dst)
    rwa [Operand.rename_id] at this
  | binary dst op x y =>
    have hspread : Spreads id b w b (.binary dst op x y)
        (.binary (id dst) op (x.rename id) (y.rename id)) := .binary
    rwa [Operand.rename_id, Operand.rename_id] at hspread
  | call _ => exact h.elim
  | loop _ _ _ _ => exact h.elim

theorem spreads_advance (h : inst.IsSingle) (φ : Reg → Reg) (first k : Nat) :
    inst.Spreads φ (first + k) 1 k ((inst.rename φ).advance first) := by
  have hindex : ∀ (a : Address), ∀ lane < 1, (a.advance first).index k lane =
      a.index (first + k + lane) 0 := by
    intro a lane hl
    rw [Nat.lt_one_iff.mp hl, Address.index_advance]
    rfl
  cases inst with
  | load dst src n =>
    cases h
    exact .load rfl (hindex src)
  | store dst x n =>
    obtain ⟨rfl, -⟩ := h
    exact .store rfl (hindex dst)
  | binary dst op x y => exact .binary
  | call _ => exact h.elim
  | loop _ _ _ _ => exact h.elim

end Inst.IsSingle

@[simp] theorem iterations_one (trips : Nat) : iterations trips 1 = trips := by simp [iterations]

@[simp] theorem iterations_mul (q : Nat) {w : Nat} (hw : w ≠ 0) : iterations (q * w) w = q := by
  rw [iterations, if_neg hw, Nat.add_sub_assoc (by omega), Nat.add_comm,
    Nat.add_mul_div_right _ _ (by omega), Nat.div_eq_of_lt (by omega), Nat.zero_add]

section Places

variable [Scalar α] {context : Context α} {S : Set α} {info : Reg → Info α} {body : Block α}
    {trips : Nat}

theorem Inst.Plain.reaches {inst : Inst α} {shape : Option Shape}
    (hp : inst.Plain context S info shape) {a : Address} {n : Nat}
    (ha : inst.access? = some (a, n)) :
    Reaches context.segments shape a n inst.isStore := by
  cases inst with
  | load dst src k =>
    cases ha
    exact hp.1
  | store dst x k =>
    cases ha
    exact hp.1
  | binary _ _ _ _ => cases ha
  | call _ => cases ha
  | loop _ _ _ _ => cases ha

omit [Scalar α] in
theorem Check.Reaches.within {a : Address} {n : Nat} {writes : Bool}
    (h : Reaches context.segments (some ⟨trips, 1⟩) a n writes) :
    ∃ s, context.segments[a.segment]? = some s ∧ a.Within s.size trips := by
  obtain ⟨s, hs, -, hin⟩ := h.segment
  refine ⟨s, hs, hin.mono ?_⟩
  have := h.lanes_ne_zero
  simp only [span]
  split <;> omega

/-- At different counts, what is written is not written or read elsewhere. -/
theorem Block.apart_of_isSeparate (hsep : Block.isSeparate body = true)
    (hsingle : ∀ inst ∈ body, inst.IsSingle)
    (hp : ∀ inst ∈ body, inst.Plain context S info (some ⟨trips, 1⟩)) {inst inst' : Inst α}
    (hi : inst ∈ body) (hi' : inst' ∈ body) {k k' : Nat} (hk : k < trips) (hk' : k' < trips)
    (hne : k ≠ k') :
    inst'.Apart k inst k' := by
  have hstore : ∀ {inst : Inst α}, inst ∈ body → inst.isStore = true →
    ∃ dst, dst ∈ Block.stores body ∧ dst.stride ≠ 0 ∧ ∃ n, inst.access? = some (dst, n) := by
    intro inst hi hs
    cases inst with
    | store dst x n =>
      exact ⟨dst, List.mem_filterMap.mpr ⟨_, hi, rfl⟩, (hsingle _ hi).2, n, rfl⟩
    | _ => cases hs
  have haccess : ∀ {inst : Inst α} {a : Address} {n : Nat}, inst ∈ body →
    inst.access? = some (a, n) → a ∈ Block.stores body ++ Block.loads body := by
    intro inst a n hi ha
    cases inst with
    | load src a' n' =>
      cases ha
      exact List.mem_append_right _ (List.mem_filterMap.mpr ⟨_, hi, rfl⟩)
    | store a' x n' =>
      cases ha
      exact List.mem_append_left _ (List.mem_filterMap.mpr ⟨_, hi, rfl⟩)
    | _ => cases ha
  -- of two accesses one of which writes, both go to the same segment only by the same address
  have hsame : ∀ {inst inst' : Inst α} {a a' : Address} {n n' : Nat}, inst ∈ body → inst' ∈ body →
      inst.isStore = true → inst.access? = some (a, n) → inst'.access? = some (a', n') →
      a'.segment = a.segment → a' = a ∧ a.stride ≠ 0 := by
    intro inst inst' a a' n n' hi hi' hs ha ha' hseg
    obtain ⟨dst, hd, hstride, k, hk⟩ := hstore hi hs
    rw [ha] at hk
    cases hk
    have := List.all_eq_true.mp (List.all_eq_true.mp hsep a hd) a' (haccess hi' ha')
    simp only [hseg, bne_self_eq_false, Bool.false_or, beq_iff_eq] at this
    exact ⟨this, hstride⟩
  intro hw p hplace hplace'
  obtain ⟨⟨a', n'⟩, ha', rfl⟩ := Option.map_eq_some_iff.mp hplace
  obtain ⟨⟨a, n⟩, ha, hp'⟩ := Option.map_eq_some_iff.mp hplace'
  obtain ⟨hseg, hindex⟩ := Prod.mk.inj hp'
  have heq : a = a' ∧ a'.stride ≠ 0 := by
    rcases hw with hw | hw
    · exact hsame hi' hi hw ha' ha hseg
    · obtain ⟨rfl, hs⟩ := hsame hi hi' hw ha ha' hseg.symm
      exact ⟨rfl, hs⟩
  obtain ⟨rfl, hstride⟩ := heq
  obtain ⟨s, -, hin⟩ := ((hp inst hi).reaches ha).within
  have hindex : (a.index k' 0).toNat = (a.index k 0).toNat := hindex
  rw [hin.index_eq (by omega), hin.index_eq (by omega)] at hindex
  obtain ⟨h0, -⟩ := hin k hk
  obtain ⟨h0', -⟩ := hin k' hk'
  have : a.position k' = a.position k := by
    simp only [Nat.add_zero] at hindex
    omega
  exact hne (Address.position_injective hstride this).symm

def Info.widen {w : Nat} (hw : w ≠ 0) (info : Info α) : Info α := ⟨w, info.numbers, hw⟩

omit [Scalar α] in
theorem Check.Reaches.widen {a : Address} {writes : Bool} {q w : Nat}
    (h : Reaches context.segments (some ⟨trips, 1⟩) a 1 writes) (hw : w ≠ 0) (hq : q * w ≤ trips)
    {n : Nat} (hn : n = w ∨ n = 1 ∧ a.stride = 0) :
    Reaches context.segments (some ⟨q, w⟩) a n writes := by
  obtain ⟨s, hs, hwr, hin⟩ := h.segment
  refine ⟨by omega, ?_, s, hs, hwr, hin.mono ?_⟩
  · rintro l hl hstride
    cases hl
    exact hn.resolve_right fun hr => hstride hr.2
  · have hle : n ≤ w := by omega
    simp only [span]
    rcases Nat.eq_zero_or_pos q with rfl | hpos
    · simp
    · have : (q - 1) * w + w = q * w := by
        rw [← Nat.succ_mul]
        congr 1
        omega
      have hpos : 0 < q * w := Nat.mul_pos hpos (Nat.pos_of_ne_zero hw)
      rw [if_neg (by omega), if_neg (by omega)]
      omega

theorem Inst.Plain.widen {inst : Inst α} (hp : inst.Plain context S info (some ⟨trips, 1⟩))
    (hi : inst.IsSingle) {q w : Nat} (hw : w ≠ 0) (hq : q * w ≤ trips) :
    (inst.widen w).Plain context S (fun r => (info r).widen hw) (some ⟨q, w⟩) := by
  have hnumbers : ∀ x : Operand α, x.numbers (fun r => (info r).widen hw) = x.numbers info :=
      fun x => by
    cases x <;> rfl
  have hlanes : ∀ x : Operand α, x.lanes (fun r => (info r).widen hw) = w ∨
      x.lanes (fun r => (info r).widen hw) = 1 := fun x => by
    cases x
    · exact Or.inl rfl
    · exact Or.inr rfl
  cases inst with
  | load dst src n =>
    cases hi
    obtain ⟨hr, -, -, hc⟩ := hp
    simp only [Inst.widen]
    by_cases hs : src.stride = 0
    · rw [if_pos hs]
      exact ⟨hr.widen hw hq (Or.inr ⟨rfl, hs⟩), Or.inl rfl, fun _ => rfl, hc⟩
    · rw [if_neg hs]
      exact ⟨hr.widen hw hq (Or.inl rfl), Or.inr rfl, fun h => absurd h hs, hc⟩
  | store dst x n =>
    obtain ⟨rfl, -⟩ := hi
    obtain ⟨hr, -, hn⟩ := hp
    refine ⟨hr.widen hw hq (Or.inl rfl), (hlanes x).symm, ?_⟩
    rwa [hnumbers]
  | binary dst op x y =>
    obtain ⟨-, hS, hd, hop⟩ := hp
    have hx := hlanes x
    have hy := hlanes y
    have hwd : ((fun r => (info r).widen hw) dst).lanes = w := rfl
    refine ⟨⟨?_, ?_⟩, ?_, ?_, ?_⟩
    · omega
    · rw [hwd]
      omega
    · rwa [hnumbers, hnumbers]
    · rw [hnumbers, hnumbers]
      exact hd
    · rw [hnumbers, hnumbers]
      exact hop
  | call _ => exact hi.elim
  | loop _ _ _ _ => exact hi.elim

omit [Scalar α] in
theorem Check.Reaches.advance {a : Address} {writes : Bool} {first : Nat}
    (h : Reaches context.segments (some ⟨trips, 1⟩) a 1 writes) (hf : first < trips) :
    Reaches context.segments (some ⟨trips - first, 1⟩) (a.advance first) 1 writes ∧
      (a.stride = 0 → a.advance first = a) := by
  obtain ⟨s, hs, hwr, hin⟩ := h.segment
  have hspan : span (some ⟨trips, 1⟩) 1 = trips := by
    simp only [span]
    split <;> omega
  rw [hspan] at hin
  have hindex : a.index first 0 = a.position first := hin.index_eq (by omega)
  refine ⟨⟨h.lanes_ne_zero, ?_, s, hs, hwr, ?_⟩, fun h0 => ?_⟩
  · rintro l hl -
    cases hl
    rfl
  · intro n hn
    have hn : n < trips - first := by
      simp only [span] at hn
      split at hn <;> omega
    rw [Address.position_advance a first n hindex]
    exact hin _ (by omega)
  · rw [Address.advance, hindex, Address.position_of_stride_zero h0]

theorem Inst.Plain.advance {inst : Inst α} (hp : inst.Plain context S info (some ⟨trips, 1⟩))
    (hi : inst.IsSingle) {first : Nat} (hf : first < trips) :
    (inst.advance first).Plain context S info (some ⟨trips - first, 1⟩) := by
  cases inst with
  | load dst src n =>
    cases hi
    obtain ⟨hr, hl, -, hc⟩ := hp
    obtain ⟨hr', hsame⟩ := hr.advance hf
    refine ⟨hr', hl, fun _ => rfl, fun v hv => hc v ?_⟩
    obtain ⟨-, -, hstride, -⟩ := constantAt?_eq_some hv
    rwa [hsame hstride] at hv
  | store dst x n =>
    obtain ⟨rfl, -⟩ := hi
    exact ⟨(hp.1.advance hf).1, hp.2⟩
  | binary dst op x y => exact hp
  | call _ => exact hi.elim
  | loop _ _ _ _ => exact hi.elim

end Places

namespace Block

theorem scoped_map {closed : Bool} {f : Inst α → Inst α} {body : Block α}
    (ht : ∀ inst ∈ body, (f inst).target? = inst.target?)
    (hf : ∀ inst ∈ body, ∀ V : Set Reg, inst.Scoped closed V → (f inst).Scoped closed V) :
    ∀ {V : Set Reg}, Block.Scoped closed V body → Block.Scoped closed V (body.map f) := by
  induction body with
  | nil => exact fun _ => trivial
  | cons inst rest ih =>
    intro V hs
    refine ⟨hf inst List.mem_cons_self V hs.1, ?_⟩
    have hdefine : (f inst).define V = inst.define V := by
      simp only [Inst.define, ht inst List.mem_cons_self]
    show Block.Scoped closed ((f inst).define V) (rest.map f)
    rw [hdefine]
    exact ih (fun i hi => ht i (List.mem_cons_of_mem _ hi))
      (fun i hi => hf i (List.mem_cons_of_mem _ hi)) hs.2

theorem targets_map {f : Inst α → Inst α} {body : Block α}
    (hf : ∀ inst ∈ body, (f inst).targets = inst.targets) :
    Block.targets (body.map f) = Block.targets body := by
  induction body with
  | nil => rfl
  | cons inst rest ih =>
    rw [List.map_cons, Block.targets, Block.targets, hf inst List.mem_cons_self,
      ih fun i hi => hf i (List.mem_cons_of_mem _ hi)]

end Block

section Renumber

variable {body : Block α} {first : Reg}

theorem Block.renumber_injective {r r' : Reg} (hr : r ∈ Block.mentions body)
    (h : Block.renumber body first r = Block.renumber body first r') : r = r' := by
  have hidx : (Block.mentions body).eraseDups.idxOf r = (Block.mentions body).eraseDups.idxOf r' :=
    Nat.add_left_cancel h
  exact (List.idxOf_inj (List.mem_eraseDups.mpr hr)).mp hidx

theorem Block.renumber_lt {r : Reg} (hr : r ∈ Block.mentions body) :
    first ≤ Block.renumber body first r ∧
      Block.renumber body first r < first + (Block.mentions body).eraseDups.length :=
  ⟨Nat.le_add_right _ _,
    Nat.add_lt_add_left (List.idxOf_lt_length_of_mem (List.mem_eraseDups.mpr hr)) _⟩

end Renumber

section Loops

variable [Scalar α] {context : Context α} {S : Set α} {info : Reg → Info α} {body : Block α}
    {trips : Nat}

/-- The body of a loop that can be widened. -/
structure Block.Widenable (context : Context α) (S : Set α) (info : Reg → Info α) (trips : Nat)
    (body : Block α) :
    Prop where
  plain : ∀ inst ∈ body, inst.Plain context S info (some ⟨trips, 1⟩)
  single : ∀ inst ∈ body, inst.IsSingle
  separate : Block.isSeparate body = true
  reads : Block.Scoped true ∅ body

namespace Block.Widenable

theorem apart (h : body.Widenable context S info trips) {b n : Nat} (hb : b + n ≤ trips) :
    body.Pairwise fun inst inst' => (List.range' b n).Pairwise fun k k' => k ≠ k' ∧
    inst'.Apart k inst k' := by
  refine List.pairwise_of_forall_mem_list fun inst hi inst' hi' => ?_
  have hnodup : (List.range' b n).Nodup := List.nodup_range'
  refine hnodup.imp_of_mem ?_
  intro k k' hk hk' hne
  obtain ⟨i, hlt, rfl⟩ := List.mem_range'.mp hk
  obtain ⟨i', hlt', rfl⟩ := List.mem_range'.mp hk'
  exact ⟨hne, Block.apart_of_isSeparate h.separate h.single h.plain hi hi' (by omega)
    (by omega) hne⟩

/-- The loop takes its counts one after another. -/
theorem ends (h : body.Widenable context S info trips) (call : String → Exec α Unit) (name : String)
    (parallel : Bool) (s : Lanes α) (g : Frame α) (hm : s.memory.Fits context.segments) :
    ∃ g', Block.exec call name 0 [.loop trips 1 parallel body] g s.memory =
        .ok g' (actEach body (List.range' 0 trips) s).memory ∧
      (actEach body (List.range' 0 trips) s).memory.Fits context.segments := by
  have hspread : ∀ i < trips, List.Forall₂ (Inst.Spreads id (0 + i * 1) 1 (i * 1)) body body := by
    intro i _
    rw [List.forall₂_same]
    intro inst hi
    simpa using (h.single inst hi).spreads_self i
  have hends := Block.iterate_ends call name (g := g) hspread h.plain h.reads (fun _ _ _ _ he => he)
    (fun i hi => h.apart (by omega)) hm
  rw [Nat.mul_one] at hends
  rw [Block.exec_singleton, Inst.exec_loop_of_ne_zero Nat.one_ne_zero, iterations_one]
  exact hends

theorem plain_wide (h : body.Widenable context S info trips) {q w : Nat} (hw : w ≠ 0)
    (hq : q * w ≤ trips) :
    ∀ inst ∈ body.map (Inst.widen w), inst.Plain context S
      (fun r => (info r).widen hw) (some ⟨q, w⟩) := by
  intro inst' hi'
  obtain ⟨inst, hi, rfl⟩ := List.mem_map.mp hi'
  exact (h.plain inst hi).widen (h.single inst hi) hw hq

theorem plain_rest (h : body.Widenable context S info trips) {first : Nat} (hf : first < trips)
    {φ : Reg → Reg} {info' : Reg → Info α} (hi : ∀ r ∈ Block.mentions body, info' (φ r) = info r) :
    ∀ inst ∈ (Block.rename φ body).map (Inst.advance first),
      inst.Plain context S info' (some ⟨trips - first, 1⟩) := by
  intro inst' hmem'
  rw [Block.rename_eq_map, List.map_map] at hmem'
  obtain ⟨inst, hmem, rfl⟩ := List.mem_map.mp hmem'
  refine Inst.Plain.advance ((h.plain inst hmem).rename fun r hr => ?_) ?_ hf
  · exact hi r (Block.mem_mentions.mpr ⟨inst, hmem, hr⟩)
  · have hsingle := h.single inst hmem
    cases inst <;> exact hsingle

/-- The wide loop takes as many counts at once as it has lanes. -/
theorem wide_ends (h : body.Widenable context S info trips) (call : String → Exec α Unit)
    (name : String) {q w : Nat} (hw : w ≠ 0) (hq : q * w ≤ trips) (s : Lanes α) (g : Frame α)
    (hm : s.memory.Fits context.segments) :
    ∃ g', Block.exec call name 0 [.loop (q * w) w true (body.map (Inst.widen w))] g s.memory =
        .ok g' (actEach body (List.range' 0 (q * w)) s).memory ∧
      (actEach body (List.range' 0 (q * w)) s).memory.Fits context.segments := by
  have hin : ∀ i < q, 0 + i * w + w ≤ trips := by
    intro i hi
    have := Nat.mul_le_mul_right w (Nat.succ_le_of_lt hi)
    rw [Nat.succ_mul] at this
    omega
  have hspread : ∀ i < q, List.Forall₂ (Inst.Spreads id (0 + i * w) w (i * w)) body
      (body.map (Inst.widen w)) :=
    fun i _ => forall₂_map_self fun inst hi => by
      simpa using (h.single inst hi).spreads_widen (i * w) w
  have hends := Block.iterate_ends call name (g := g) hspread (h.plain_wide hw hq) h.reads
    (fun _ _ _ _ he => he) (fun i hi => h.apart (hin i hi)) hm
  rw [Block.exec_singleton, Inst.exec_loop_of_ne_zero hw, iterations_mul q hw]
  exact hends

theorem rest_ends (h : body.Widenable context S info trips) (call : String → Exec α Unit)
    (name : String) {first : Nat} (hf : first < trips) {φ : Reg → Reg}
    (hφ : ∀ r ∈ Block.mentions body, ∀ r' ∈ Block.mentions body, φ r = φ r' → r = r')
    {info' : Reg → Info α} (hi : ∀ r ∈ Block.mentions body, info' (φ r) = info r) (s : Lanes α)
    (g : Frame α) (hm : s.memory.Fits context.segments) :
    ∃ g', Block.exec call name 0 [.loop (trips - first) 1 true
      ((Block.rename φ body).map (Inst.advance first))]
        g s.memory = .ok g' (actEach body (List.range' first (trips - first)) s).memory ∧
      (actEach body (List.range' first (trips - first)) s).memory.Fits context.segments := by
  have hdefine : ∀ r ∈ Block.define body ∅, r ∈ Block.mentions body := by
    intro r hr
    obtain ⟨inst, hmem, ht⟩ := (Block.mem_define.mp hr).resolve_left (by simp)
    exact Block.mem_mentions.mpr
      ⟨inst, hmem, inst.targets_subset_mentions r (Inst.mem_targets_of_target? ht)⟩
  have hspread : ∀ i < trips - first, List.Forall₂ (Inst.Spreads φ (first + i * 1) 1 (i * 1)) body
      ((Block.rename φ body).map (Inst.advance first)) := by
    intro i _
    rw [Block.rename_eq_map, List.map_map]
    exact forall₂_map_self fun inst hi => by
      simpa using (h.single inst hi).spreads_advance φ first i
  have hends := Block.iterate_ends call name (g := g) hspread (h.plain_rest hf hi) h.reads
    (fun r hr r' hr' => hφ r (hdefine r hr) r' (hdefine r' hr')) (fun i hi => h.apart (by omega)) hm
  rw [Nat.mul_one] at hends
  rw [Block.exec_singleton, Inst.exec_loop_of_ne_zero Nat.one_ne_zero, iterations_one]
  exact hends

end Block.Widenable
end Loops

section Swaps

variable [Scalar α] {rel : (String → Exec α Unit) → (String → Exec α Unit) → Prop}
    {context : Context α} {S : Set α} {info : Reg → Info α} {V : Set Reg} {bound : Nat}

namespace Inst

omit [Scalar α] in
@[simp] theorem targets_widen (w : Nat) (inst : Inst α) : (inst.widen w).targets = inst.targets :=
  by cases inst <;> rfl

omit [Scalar α] in
@[simp] theorem targets_advance (first : Nat) (inst : Inst α) :
    (inst.advance first).targets = inst.targets := by
  cases inst <;> rfl

omit [Scalar α] in
theorem scoped_widen {closed : Bool} (w : Nat) (body : Block α) (h : Block.Scoped closed V body) :
    Block.Scoped closed V (body.map (Inst.widen w)) :=
  Block.scoped_map (fun inst _ => by cases inst <;> rfl)
  (fun inst _ _ h => by cases inst <;> exact h) h

omit [Scalar α] in
theorem scoped_advance (first : Nat) (body : Block α) (h : Block.Scoped true V body) :
    Block.Scoped true V (body.map (Inst.advance first)) :=
  Block.scoped_map (fun inst _ => by cases inst <;> rfl)
  (fun inst _ _ h => by cases inst <;> exact h) h

theorem swaps_wide {trips q w : Nat} {parallel : Bool} {body : Block α} {inner : Reg → Info α}
    (hw : w ≠ 0) (hq : q * w = trips) (hbody : Block.Widenable context S inner trips body)
    (hd : (Block.targets body).Nodup) :
    Swaps rel context S info bound 0 [.loop trips 1 parallel body]
      [.loop trips w true (body.map (Inst.widen w))] := by
  subst hq
  have htargets : Block.targets (body.map (Inst.widen w)) = Block.targets body :=
    Block.targets_map fun inst _ => targets_widen w inst
  refine ⟨⟨info, fun _ _ => rfl, ?_⟩, ⟨scoped_widen w body hbody.reads, trivial⟩, ?_, ?_, ?_, ?_⟩
  · simp only [List.mem_singleton, forall_eq]
    exact ⟨hw, _, by rw [iterations_mul _ hw]; exact hbody.plain_wide hw (Nat.le_refl _)⟩
  · intro r hr
    exact Or.inl (by simpa [Block.targets, targets, htargets] using hr)
  · simpa [Block.targets, targets, htargets] using hd
  · simp [define, target?]
  · intro call call' _ name f g m hm
    obtain ⟨f', hx, hm'⟩ := hbody.ends call name parallel ⟨fun _ _ => 0, m⟩ f hm
    obtain ⟨g', hy, -⟩ := hbody.wide_ends call' name hw (Nat.le_refl _)
      ⟨fun _ _ => 0, m⟩ g hm
    exact Follows.of_ends hx hy ⟨rfl, hm'⟩

theorem swaps_wide_rest {trips q w : Nat} {parallel : Bool} {body : Block α} {inner : Reg → Info α}
    (hw : w ≠ 0) (hq : q * w < trips) (hbody : Block.Widenable context S inner trips body)
    (hd : (Block.targets body).Nodup) (hb : ∀ r : Nat, r ∈ Block.targets body → r < bound) :
    Swaps rel context S info bound (Block.mentions body).eraseDups.length
      [.loop trips 1 parallel body] [.loop (q * w) w true (body.map (Inst.widen w)),
        .loop (trips - q * w) 1 true
          ((Block.rename (Block.renumber body bound) body).map (Inst.advance (q * w)))] := by
  have hφ : ∀ r ∈ Block.mentions body, ∀ r' ∈ Block.mentions body,
      Block.renumber body bound r = Block.renumber body bound r' → r = r' :=
    fun r hr r' _ he => Block.renumber_injective hr he
  obtain ⟨inner', hinner⟩ := exists_info_renamed inner hφ
  have hmentions := Block.targets_subset_mentions body
  have htargets : Block.targets (body.map (Inst.widen w)) = Block.targets body :=
    Block.targets_map fun inst _ => targets_widen w inst
  have hrest : Block.targets ((Block.rename (Block.renumber body bound) body).map
    (Inst.advance (q * w))) = (Block.targets body).map (Block.renumber body bound) := by
    rw [Block.targets_map fun inst _ => targets_advance _ inst, Block.targets_rename]
  refine ⟨⟨info, fun _ _ => rfl, ?_⟩, ⟨scoped_widen w body hbody.reads,
    scoped_advance _ _ (Block.Scoped.rename _ hbody.reads (by simp)), trivial⟩, ?_, ?_, ?_, ?_⟩
  · simp only [List.forall_mem_cons, List.not_mem_nil, false_implies, implies_true, and_true]
    exact ⟨⟨hw, _, by rw [iterations_mul _ hw]; exact hbody.plain_wide hw hq.le⟩,
      ⟨Nat.one_ne_zero, inner', by rw [iterations_one]; exact hbody.plain_rest hq hinner⟩⟩
  · intro r hr
    simp only [Block.targets, targets, htargets, hrest, List.append_nil, List.mem_append,
      List.mem_map] at hr ⊢
    rcases hr with hr | ⟨t, ht, rfl⟩
    · exact Or.inl hr
    · exact Or.inr (Block.renumber_lt (hmentions t ht))
  · simp only [Block.targets, targets, htargets, hrest, List.append_nil]
    refine List.nodup_append.mpr ⟨hd,
      List.Nodup.map_on (fun r hr r' hr' => hφ r (hmentions r hr) r' (hmentions r' hr')) hd, ?_⟩
    rintro r hr r' hr' rfl
    obtain ⟨t, ht, rfl⟩ := List.mem_map.mp hr'
    exact absurd (hb _ hr) (Nat.not_lt.mpr (Block.renumber_lt (hmentions t ht)).1)
  · simp [define, target?]
  · intro call call' _ name f g m hm
    obtain ⟨f', hx, hm'⟩ := hbody.ends call name parallel ⟨fun _ _ => 0, m⟩ f hm
    obtain ⟨g₁, hy, hm₁⟩ := hbody.wide_ends call' name hw hq.le
      ⟨fun _ _ => 0, m⟩ g hm
    obtain ⟨g₂, hz, -⟩ := hbody.rest_ends call' name hq hφ hinner _ g₁ hm₁
    have heach : Block.actEach body (List.range' 0 trips) ⟨fun _ _ => 0, m⟩ =
        Block.actEach body (List.range' (q * w) (trips - q * w))
          (Block.actEach body (List.range' 0 (q * w)) ⟨fun _ _ => 0, m⟩) := by
      have hadd := Block.actEach_add body 0 (q * w) (trips - q * w) ⟨fun _ _ => 0, m⟩
      rwa [Nat.add_sub_cancel' hq.le, Nat.zero_add] at hadd
    refine Follows.of_ends (c := g₂) hx ?_ ⟨rfl, hm'⟩
    rw [heach, ← hz, ← List.singleton_append, Block.exec_append, Exec.bind_of_ok hy]

/-- A loop that is widened is replaced by what does the same. -/
theorem swaps_widened {w : Nat} (hw : w ≠ 0) {inst : Inst α} {next next' : Nat} {loops : Block α}
    (h : inst.widened? w next = some (loops, next')) (ht : inst.Tame context S info)
    (hs : inst.Scoped true V) (hd : inst.targets.Nodup)
    (hb : ∀ r : Nat, r ∈ inst.targets → r < next) :
    inst.target? = none ∧ ∃ count, next' = next + count ∧
    Swaps rel context S info next count [inst] loops := by
  cases inst with
  | loop trips step parallel body =>
    refine ⟨rfl, ?_⟩
    simp only [widened?] at h
    split at h
    · rename_i hcond
      simp only [Bool.and_eq_true, beq_iff_eq] at hcond
      obtain ⟨⟨⟨⟨-, rfl⟩, -⟩, hscalar⟩, hsep⟩ := hcond
      obtain ⟨-, inner, hplain⟩ := ht
      rw [iterations_one] at hplain
      have hbody : Block.Widenable context S inner trips body :=
        ⟨hplain, Block.isScalar_iff.mp hscalar, hsep, hs⟩
      have hmain : trips - trips % w = trips / w * w := by
        have := Nat.div_add_mod' trips w
        omega
      rw [hmain] at h
      split at h
      · cases h
        exact ⟨_, rfl, swaps_wide_rest hw ‹_› hbody hd hb⟩
      · cases h
        have heq : trips / w * w = trips := by
          have := Nat.div_mul_le_self trips w
          omega
        rw [heq]
        exact ⟨0, rfl, swaps_wide hw heq hbody hd⟩
    · cases h
  | _ => cases h

end Inst

theorem Block.splices_widen {w : Nat} (hw : w ≠ 0) {body : List (Inst α)} :
    ∀ {info : Reg → Info α} {V W : Set Reg} {next : Nat}, Spliceable context S info V W next body →
      Splices (CallsFollow (Memory.Same context.segments)) context S info V W next
        (Block.widen w next body).2.1 body (Block.widen w next body).1 := by
  induction body with
  | nil => exact fun _ => Splices.nil
  | cons inst rest ih =>
    intro info V W next h
    have h : Spliceable context S info V W next ([inst] ++ rest) := h
    simp only [Block.widen]
    cases hi : inst.widened? w next with
    | some loops =>
      obtain ⟨loops, next'⟩ := loops
      have hnodup : inst.targets.Nodup := by simpa [Block.targets] using h.left.nodup
      obtain ⟨hnone, count, rfl, hswaps⟩ :=
        Inst.swaps_widened hw hi (h.tame inst List.mem_cons_self) h.reads.1 hnodup fun r hr =>
          h.left.target_lt (by simpa [Block.targets] using hr)
      exact Splices.splice h hswaps (by simp [Inst.define, hnone]) fun _ _ _ h' => ih h'
    | none => exact Splices.keep (fun _ _ hcall => hcall) h (ih h.after)

theorem Routine.widenLoops_tame {r : Routine α} (h : r.Tame context S) (w : Nat) :
    (r.widenLoops w).1.Tame context S ∧
    r.Imitates (Memory.Same context.segments) (r.widenLoops w).1 := by
  unfold widenLoops
  split
  · exact ⟨h, h.imitates_self⟩
  · rename_i hw
    obtain ⟨ht, hf⟩ := h.splice r.counted_sync { r with body := _, nextReg := _ }
      fun info hi => ⟨_, Block.splices_widen (w := w) (by omega) hi⟩
    exact ⟨ht, rfl, hf⟩

end Swaps
end StreamStats
