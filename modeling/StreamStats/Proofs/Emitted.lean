import StreamStats.Proofs.Lowered
import StreamStats.Proofs.Splicing
import StreamStats.Transform.Reachable

/-! Generated code is tame. It is put together from parts that set registers of their own, one lane
each; and its immediates, however far constants are folded, are the numbers that constant cells show
to other cells and what one operation makes of two of them. -/

namespace StreamStats

open Check

variable {α : Type} [Scalar α]

/-- Code that reads nothing from outside and sets registers of its own, from `first` up to
`last`. -/
structure Block.Owns (context : Context α) (S : Set α) (first last : Nat) (body : Block α) :
    Prop where
  le : first ≤ last
  tame : ∃ info, ∀ inst ∈ body, inst.Tame context S info
  reads : Block.Scoped true ∅ body
  targets : ∀ r : Nat, r ∈ Block.targets body → first ≤ r ∧ r < last
  nodup : (Block.targets body).Nodup

namespace Block.Owns

variable {context : Context α} {S : Set α} {a b d : Nat} {body rest : Block α}

theorem mentions (h : body.Owns context S a b) : ∀ r : Nat, r ∈ Block.mentions body → r < b :=
  fun r hr =>
  (h.targets r ((Block.mentions_of_scoped h.reads r hr).resolve_left (by simp))).2

theorem mentions_ge (h : body.Owns context S a b) : ∀ r : Nat, r ∈ Block.mentions body → a ≤ r :=
  fun r hr =>
  (h.targets r ((Block.mentions_of_scoped h.reads r hr).resolve_left (by simp))).1

@[simp] theorem nil : Block.Owns context S a a [] :=
  ⟨Nat.le_refl a, ⟨fun _ => ⟨1, ∅, Nat.one_ne_zero⟩, by simp⟩, trivial, by simp [Block.targets],
    by simp [Block.targets]⟩

theorem append (h : body.Owns context S a b) (h' : rest.Owns context S b d) :
    (body ++ rest).Owns context S a d := by
  obtain ⟨info, hi⟩ := h.tame
  obtain ⟨info', hi'⟩ := h'.tame
  refine ⟨h.le.trans h'.le, ⟨fun r => if r < b then info r else info' r, fun inst hinst => ?_⟩, ?_,
    fun r hr => ?_, ?_⟩
  · rcases List.mem_append.mp hinst with hinst | hinst
    · refine (hi inst hinst).congr fun r hr => (if_pos ?_).symm
      exact h.mentions r (Block.mem_mentions.mpr ⟨inst, hinst, hr⟩)
    · refine (hi' inst hinst).congr fun r hr => (if_neg ?_).symm
      exact Nat.not_lt.mpr (h'.mentions_ge r (Block.mem_mentions.mpr ⟨inst, hinst, hr⟩))
  · exact Block.scoped_append.mpr
      ⟨h.reads, Block.Scoped.mono (fun h => h) (Set.empty_subset _) h'.reads⟩
  · have hle := h.le
    have hle' := h'.le
    rw [Block.targets_append, List.mem_append] at hr
    rcases hr with hr | hr
    · have := h.targets r hr
      omega
    · have := h'.targets r hr
      omega
  · rw [Block.targets_append]
    refine List.nodup_append.mpr ⟨h.nodup, h'.nodup, ?_⟩
    rintro r hr _ hr' rfl
    exact absurd (h.targets r hr).2 (Nat.not_lt.mpr (h'.targets r hr').1)

theorem flatMap {β : Type} {block : β → Block α} {k : Nat} {xs : List β} :
    ∀ {a : Nat}, (∀ (i : Nat) (x : β), xs[i]? = some x →
      (block x).Owns context S (a + k * i) (a + k * i + k)) →
      Block.Owns context S a (a + k * xs.length) (xs.flatMap block) := by
  induction xs with
  | nil => exact fun _ => Owns.nil
  | cons x xs ih =>
    intro a h
    have hrest : Block.Owns context S (a + k) (a + k + k * xs.length) (xs.flatMap block) := by
      refine ih fun i y hy => ?_
      have hplace : a + k * (i + 1) = a + k + k * i := by ring
      rw [← hplace]
      exact h (i + 1) y hy
    have hlast : a + k * (x :: xs).length = a + k + k * xs.length := by
      rw [List.length_cons]
      ring
    rw [List.flatMap_cons, hlast]
    exact (h 0 x rfl).append hrest

theorem loop {n : Nat} {parallel : Bool} {info : Reg → Info α}
    (hp : ∀ inst ∈ body, inst.Plain context S info (some ⟨n, 1⟩)) (hs : Block.Scoped true ∅ body)
    (hle : a ≤ b) (ht : ∀ r : Nat, r ∈ Block.targets body → a ≤ r ∧ r < b)
    (hd : (Block.targets body).Nodup) :
    Block.Owns context S a b [.loop n 1 parallel body] := by
  refine ⟨hle, ⟨fun _ => ⟨1, ∅, Nat.one_ne_zero⟩, ?_⟩, ⟨hs, trivial⟩, ?_, ?_⟩
  · simp only [List.mem_singleton, forall_eq]
    refine ⟨Nat.one_ne_zero, info, ?_⟩
    rwa [show iterations n 1 = n by simp [iterations]]
  · simpa [Block.targets, Inst.targets] using ht
  · simpa [Block.targets, Inst.targets] using hd

theorem of_plain {info : Reg → Info α} (hp : ∀ inst ∈ body, inst.Plain context S info none)
    (hs : Block.Scoped true ∅ body) (hle : a ≤ b) (ht : ∀ r : Nat, r ∈ Block.targets body → a ≤ r ∧
      r < b) (hd : (Block.targets body).Nodup) : body.Owns context S a b :=
  ⟨hle, ⟨info, fun inst hi => Inst.tame_of_plain (hp inst hi)⟩, hs, ht, hd⟩

theorem calls {names : List String} (h : ∀ name ∈ names, name ∈ context.routines) :
    Block.Owns context S a a (names.map Inst.call) := by
  induction names with
  | nil => exact Owns.nil
  | cons name names ih =>
    obtain ⟨hname, hnames⟩ := List.forall_mem_cons.mp h
    have hcall : Block.Owns context S a a [.call name] := by
      refine ⟨Nat.le_refl a, ⟨fun _ => ⟨1, ∅, Nat.one_ne_zero⟩, ?_⟩, ⟨trivial, trivial⟩, ?_, ?_⟩
      · simp only [List.mem_singleton, forall_eq]
        exact hname
      · simp [Block.targets, Inst.targets]
      · simp [Block.targets, Inst.targets]
    exact hcall.append (ih hnames)

theorem routine (h : body.Owns context S a b) (name : String) (linkage : Linkage) :
    (Routine.ofBody name linkage body).Tame context S := ⟨h.tame, h.reads, h.nodup⟩

end Block.Owns

namespace Codegen.Layout

variable {context : Context α} {S : Set α} {shape : Option Shape} {l : Layout}

theorem copyElement_plain {dst src : Address} (hs : Reaches context.segments shape src 1 false)
    (hd : Reaches context.segments shape dst 1 true)
    (hS : ∀ v, constantAt? context.segments src = some v → v ∈ S) (r : Reg) :
    ∃ info, ∀ inst ∈ copyElement r dst src, inst.Plain context S info shape := by
  refine ⟨fun _ => ⟨1, {v | constantAt? context.segments src = some v}, Nat.one_ne_zero⟩, ?_⟩
  simp only [copyElement, List.forall_mem_cons, List.not_mem_nil, false_implies, implies_true,
    and_true]
  exact ⟨⟨hs, Or.inl rfl, fun _ => rfl, fun _ hv => hv⟩, hd, Or.inl rfl, hS⟩

theorem combineElement_plain {op : Arith} {dst lhs rhs : Address}
    (hl : Reaches context.segments shape lhs 1 false)
    (hr : Reaches context.segments shape rhs 1 false)
    (hd : Reaches context.segments shape dst 1 true) {X Y : Set α}
    (hX : ∀ v, constantAt? context.segments lhs = some v → v ∈ X)
    (hY : ∀ v, constantAt? context.segments rhs = some v → v ∈ Y) (hXS : X ⊆ S) (hYS : Y ⊆ S)
    (hop : ∀ x ∈ X, ∀ y ∈ Y, op.apply x y ∈ S) (r : Reg) :
    ∃ info, ∀ inst ∈ combineElement r op dst lhs rhs, inst.Plain context S info shape := by
  -- the three registers hold what is read left, what is read right, and what becomes of the two
  let Z : Set α := {v | v ∈ X ∨ v ∈ Y ∨ ∃ x ∈ X, ∃ y ∈ Y, v = op.apply x y}
  let numbers : Reg → Set α := fun t => if t = r then X else if t = r + 1 then Y else Z
  have h0 : numbers r = X := if_pos rfl
  have h1 : numbers (r + 1) = Y := by simp [numbers]
  have h2 : numbers (r + 2) = Z := by simp [numbers]
  have hZ : Z ⊆ S := by
    rintro v (hv | hv | ⟨x, hx, y, hy, rfl⟩)
    · exact hXS hv
    · exact hYS hv
    · exact hop x hx y hy
  refine ⟨fun t => ⟨1, numbers t, Nat.one_ne_zero⟩, ?_⟩
  simp only [combineElement, List.forall_mem_cons, List.not_mem_nil, false_implies, implies_true,
    and_true]
  refine ⟨⟨hl, Or.inl rfl, fun _ => rfl, fun v hv => ?_⟩, ⟨hr, Or.inl rfl, fun _ => rfl, fun v hv =>
    ?_⟩, ⟨⟨Or.inl rfl, Or.inl rfl⟩, ?_, ?_, ?_⟩, hd, Or.inl rfl, ?_⟩
  all_goals simp only [Operand.numbers, h0, h1, h2]
  · exact hX v hv
  · exact hY v hv
  · exact ⟨hXS, hYS⟩
  · exact ⟨fun x hx => Or.inl hx, fun y hy => Or.inr (Or.inl hy)⟩
  · exact fun x hx y hy => Or.inr (Or.inr ⟨x, hx, y, hy, rfl⟩)
  · exact hZ

section Elements

variable {dst src lhs rhs : Address} {n : Nat} {parallel : Bool}

omit [Scalar α] in
theorem copyElement_form (r : Nat) (dst src : Address) :
    Block.Scoped true ∅ (copyElement r dst src : Block α) ∧
      Block.targets (copyElement r dst src : Block α) = [r] := by
  simp [copyElement, Block.Scoped, Inst.Scoped, Operand.Reads, Inst.define, Inst.target?,
    Block.targets, Inst.targets]

theorem copyElement_owns (hs : Reaches context.segments none src 1 false)
    (hd : Reaches context.segments none dst 1 true)
    (hS : ∀ v, constantAt? context.segments src = some v → v ∈ S) (r : Nat) :
    Block.Owns context S r (r + 1) (copyElement r dst src) := by
  obtain ⟨info, hplain⟩ := copyElement_plain hs hd hS r
  obtain ⟨hscoped, htargets⟩ := copyElement_form (α := α) r dst src
  exact Block.Owns.of_plain hplain hscoped (Nat.le_succ r) (by rw [htargets]; simp)
    (by rw [htargets]; simp)

theorem copyLoop_owns (hs : Reaches context.segments (some ⟨n, 1⟩) src 1 false)
    (hd : Reaches context.segments (some ⟨n, 1⟩) dst 1 true)
    (hS : ∀ v, constantAt? context.segments src = some v → v ∈ S) (r : Nat) :
    Block.Owns context S r (r + 1) [.loop n 1 parallel (copyElement r dst src)] := by
  obtain ⟨info, hplain⟩ := copyElement_plain hs hd hS r
  obtain ⟨hscoped, htargets⟩ := copyElement_form (α := α) r dst src
  exact Block.Owns.loop hplain hscoped (Nat.le_succ r) (by rw [htargets]; simp)
    (by rw [htargets]; simp)

omit [Scalar α] in
theorem combineElement_form (r : Nat) (op : Arith) (dst lhs rhs : Address) :
    Block.Scoped true ∅ (combineElement r op dst lhs rhs : Block α) ∧
      Block.targets (combineElement r op dst lhs rhs : Block α) = [r, r + 1, r + 2] := by
  simp [combineElement, Block.Scoped, Inst.Scoped, Operand.Reads, Inst.define, Inst.target?,
    Block.targets, Inst.targets]

variable {op : Arith} {X Y : Set α} (hX : ∀ v, constantAt? context.segments lhs = some v → v ∈ X)
  (hY : ∀ v, constantAt? context.segments rhs = some v → v ∈ Y) (hXS : X ⊆ S) (hYS : Y ⊆ S)
  (hop : ∀ x ∈ X, ∀ y ∈ Y, op.apply x y ∈ S)

include hX hY hXS hYS hop

theorem combineElement_owns (hl : Reaches context.segments none lhs 1 false)
    (hr : Reaches context.segments none rhs 1 false) (hd : Reaches context.segments none dst 1 true)
    (r : Nat) :
    Block.Owns context S r (r + 3) (combineElement r op dst lhs rhs) := by
  obtain ⟨info, hplain⟩ := combineElement_plain hl hr hd hX hY hXS hYS hop r
  obtain ⟨hscoped, htargets⟩ := combineElement_form (α := α) r op dst lhs rhs
  exact Block.Owns.of_plain hplain hscoped (Nat.le_add_right r 3) (by rw [htargets]; simp)
    (by rw [htargets]; simp)

theorem combineLoop_owns (hl : Reaches context.segments (some ⟨n, 1⟩) lhs 1 false)
    (hr : Reaches context.segments (some ⟨n, 1⟩) rhs 1 false)
    (hd : Reaches context.segments (some ⟨n, 1⟩) dst 1 true) (r : Nat) :
    Block.Owns context S r (r + 3) [.loop n 1 parallel (combineElement r op dst lhs rhs)] := by
  obtain ⟨info, hplain⟩ := combineElement_plain hl hr hd hX hY hXS hYS hop r
  obtain ⟨hscoped, htargets⟩ := combineElement_form (α := α) r op dst lhs rhs
  exact Block.Owns.loop hplain hscoped (Nat.le_add_right r 3) (by rw [htargets]; simp)
    (by rw [htargets]; simp)

end Elements

/-- A pin is in memory, and if it is of a constant, it is one of the numbers expected. -/
def Provides (l : Layout) (segments : Array (Segment α)) (K : Pin → Set α) (p : Pin) : Prop :=
  ∃ seg, segments[l.home p.cell]? = some seg ∧ p.element < seg.size ∧ seg.size ≤ signBound ∧
    (seg.role = .constant → ∀ v, seg.contents[p.element]? = some v → v ∈ K p)

def Takes (segments : Array (Segment α)) (d n : Nat) : Prop :=
  ∃ seg, segments[d]? = some seg ∧ seg.role.isWritable = true ∧ n ≤ seg.size ∧ seg.size ≤ signBound

section Places

variable {segments : Array (Segment α)} {K : Pin → Set α} {a : Address} {p : Pin} {d n : Nat}

omit [Scalar α]

@[simp] theorem span_one (n : Nat) : span (some ⟨n, 1⟩) 1 = n := by
  simp only [span]
  split <;> omega

@[simp] theorem position_fixed {s i : Nat} (h : i < signBound) (n : Nat) :
    (Address.fixed s i).position n = i := by
  simp [Address.position, Address.fixed, signedIndex_of_lt h]

theorem Provides.number (h : l.Provides segments K p) (hs : a.segment = l.home p.cell)
    (hp : a.position 0 = p.element) {v : α} (hv : constantAt? segments a = some v) : v ∈ K p := by
  obtain ⟨seg, hseg, -, -, hK⟩ := h
  have hoffset : a.offset = p.element := by simpa [Address.position] using hp
  simp only [constantAt?, hs, hseg, hoffset, Int.toNat_natCast] at hv
  split at hv
  · rename_i hc
    exact hK hc.2.1 v hv
  · cases hv

theorem Provides.reaches (h : l.Provides segments K p) :
    Reaches segments none (l.element p) 1 false := by
  obtain ⟨seg, hseg, hlt, hbound, -⟩ := h
  refine ⟨Nat.one_ne_zero, (fun _ hl => nomatch hl), seg, hseg,
    by simp, Address.within_of_le_signBound hbound fun n _ => ?_⟩
  rw [element, position_fixed (by omega)]
  omega

theorem Provides.number_element (h : l.Provides segments K p) {v : α}
    (hv : constantAt? segments (l.element p) = some v) : v ∈ K p := by
  obtain ⟨seg, hseg, hlt, hbound, hK⟩ := h
  exact Provides.number ⟨seg, hseg, hlt, hbound, hK⟩ rfl (position_fixed (by omega) 0) hv

/-- The address of an even bus stays on the bus. -/
theorem reaches_moving {b : Bus} (hb : ∀ p ∈ b, l.Provides segments K p)
    (ha : l.moving? b = some a) :
    Reaches segments (some ⟨b.length, 1⟩) a 1 false ∧
      ∃ p, b[0]? = some p ∧ ∀ v, constantAt? segments a = some v → v ∈ K p := by
  have hpin : ∀ {i : Nat} {p : Pin}, b[i]? = some p → a.segment = l.home p.cell ∧
      a.position i = p.element := by
    intro i p hp
    obtain ⟨seg, -, hlt, hbound, -⟩ := hb p (List.mem_of_getElem? hp)
    exact position_of_moving? ha hp (by omega)
  obtain ⟨p, hp⟩ : ∃ p, b[0]? = some p := by
    cases b with
    | nil => simp [moving?, Bus.progression?] at ha
    | cons p b => exact ⟨p, rfl⟩
  obtain ⟨hs, h0⟩ := hpin hp
  have hmem := List.mem_of_getElem? hp
  obtain ⟨seg, hseg, -, hbound, -⟩ := hb p hmem
  refine ⟨⟨Nat.one_ne_zero, fun _ hl _ => (Option.some.inj hl ▸ rfl), seg, hs ▸ hseg, by simp, ?_⟩,
    p, hp, fun v hv => (hb p hmem).number hs h0 hv⟩
  rw [span_one]
  refine Address.within_of_le_signBound hbound fun i hi => ?_
  have hq := List.getElem?_eq_getElem hi
  obtain ⟨hsq, hposition⟩ := hpin hq
  obtain ⟨seg', hseg', hlt, -, -⟩ := hb _ (List.mem_of_getElem? hq)
  rw [← hsq, hs, hseg] at hseg'
  cases hseg'
  omega

theorem Takes.reaches_fixed (h : Takes segments d n) {i : Nat} (hi : i < n) :
    Reaches segments none (.fixed d i) 1 true := by
  obtain ⟨seg, hseg, hw, hle, hbound⟩ := h
  refine ⟨Nat.one_ne_zero, (fun _ hl => nomatch hl), seg, hseg, fun _ => hw,
    Address.within_of_le_signBound hbound fun k _ => ?_⟩
  rw [position_fixed (by omega)]
  omega

theorem Takes.reaches_counting (h : Takes segments d n) :
    Reaches segments (some ⟨n, 1⟩) ⟨d, 0, 1⟩ 1 true := by
  obtain ⟨seg, hseg, hw, hle, hbound⟩ := h
  refine ⟨Nat.one_ne_zero, fun _ hl _ => (Option.some.inj hl ▸ rfl), seg, hseg, fun _ => hw, ?_⟩
  rw [span_one]
  refine Address.within_of_le_signBound hbound fun k hk => ?_
  simp only [Address.position]
  omega

end Places

section Buses

variable {K : Pin → Set α} {d : Nat}

theorem copy_owns {b : Bus} (hb : ∀ p ∈ b, l.Provides context.segments K p) (hK : ∀ p ∈ b, K p ⊆ S)
    (hd : Takes context.segments d b.length) (r : Nat) :
    ∃ last, (l.copy r d b).Owns context S r last := by
  unfold copy
  split
  · rename_i a ha _
    obtain ⟨hreaches, p, hp, hnumber⟩ := reaches_moving hb ha
    exact ⟨r + 1, copyLoop_owns hreaches hd.reaches_counting
      (fun v hv => hK p (List.mem_of_getElem? hp) (hnumber v hv)) r⟩
  · refine ⟨_, Block.Owns.flatMap (k := 1) fun i (p, j) hz => ?_⟩
    obtain ⟨hp, rfl⟩ : b[i]? = some p ∧ j = i := by simpa [List.getElem?_zipIdx, eq_comm] using hz
    have hmem := List.mem_of_getElem? hp
    rw [Nat.one_mul]
    exact copyElement_owns (hb p hmem).reaches
      (hd.reaches_fixed (List.getElem?_eq_some_iff.mp hp).1)
      (fun v hv => hK p hmem ((hb p hmem).number_element hv)) (r + j)

theorem combine_owns {op : Arith} {lhs rhs : Bus} (hl : ∀ p ∈ lhs, l.Provides context.segments K p)
    (hr : ∀ p ∈ rhs, l.Provides context.segments K p) (hlK : ∀ p ∈ lhs, K p ⊆ S)
    (hrK : ∀ p ∈ rhs, K p ⊆ S) (hop : ∀ (i : Nat) (p q : Pin), lhs[i]? = some p → rhs[i]? = some q →
      ∀ x ∈ K p, ∀ y ∈ K q, op.apply x y ∈ S)
    (hlen : lhs.length = rhs.length) (hd : Takes context.segments d lhs.length) :
    ∃ last, (l.combine op d lhs rhs).Owns context S 0 last := by
  unfold combine
  split
  · rename_i a b ha hb _
    obtain ⟨hla, p, hp, hpK⟩ := reaches_moving hl ha
    obtain ⟨hrb, q, hq, hqK⟩ := reaches_moving hr hb
    rw [← hlen] at hrb
    exact ⟨0 + 3, combineLoop_owns hpK hqK (hlK p (List.mem_of_getElem? hp))
      (hrK q (List.mem_of_getElem? hq)) (hop 0 p q hp hq) hla hrb hd.reaches_counting 0⟩
  · refine ⟨_, Block.Owns.flatMap (k := 3) fun i ((p, q), j) hz => ?_⟩
    obtain ⟨hz, rfl⟩ : (lhs.zip rhs)[i]? = some (p, q) ∧ j = i := by
      simpa [List.getElem?_zipIdx, eq_comm] using hz
    obtain ⟨hp, hq⟩ : lhs[j]? = some p ∧ rhs[j]? = some q := List.getElem?_zip_eq_some.mp hz
    have hpm := List.mem_of_getElem? hp
    have hqm := List.mem_of_getElem? hq
    rw [Nat.zero_add]
    exact combineElement_owns (fun v hv => (hl p hpm).number_element hv)
      (fun v hv => (hr q hqm).number_element hv) (hlK p hpm) (hrK q hqm) (hop j p q hp hq)
      (hl p hpm).reaches (hr q hqm).reaches (hd.reaches_fixed (List.getElem?_eq_some_iff.mp hp).1)
      (3 * j)

omit [Scalar α] in
theorem reaches_of_within {segments : Array (Segment α)} {seg : Segment α} {a : Address} {n : Nat}
    {writes : Bool} (hseg : segments[a.segment]? = some seg)
    (hw : writes = true → seg.role.isWritable = true) (h : a.Within seg.size n) :
    Reaches segments (some ⟨n, 1⟩) a 1 writes ∧
      ∀ i < n, Reaches segments none ⟨a.segment, a.index i 0, 0⟩ 1 writes := by
  refine ⟨⟨Nat.one_ne_zero, fun _ hl _ => (Option.some.inj hl ▸ rfl), seg, hseg, hw, ?_⟩,
    fun i hi =>
    ⟨Nat.one_ne_zero, (fun _ hl => nomatch hl), seg, hseg, hw, fun k _ => ?_⟩⟩
  · rwa [span_one]
  · rw [Address.position_of_stride_zero rfl, h.index_eq (by omega)]
    exact h i hi

omit [Scalar α] in
theorem constantAt?_eq_none {segments : Array (Segment α)} {seg : Segment α} {a : Address}
    (hseg : segments[a.segment]? = some seg) (hrole : seg.role ≠ .constant) :
    constantAt? segments a = none := by
  simp [constantAt?, hseg, hrole]

/-- Code that moves a delay line owns its registers. -/
theorem shift_owns {seg : Segment α} {width window : Nat} (hseg : context.segments[d]? = some seg)
    (hw : seg.role.isWritable = true) (hsize : seg.size = width * window)
    (hbound : seg.size ≤ signBound) :
    (l.shift d width window).1.Owns context S 0 (l.shift d width window : Block α × Reg).2 := by
  have hmoved : width * (window - 1) = width * window - width := by rw [Nat.mul_sub, Nat.mul_one]
  have hconstant : seg.role ≠ .constant := by
    rintro hr
    rw [hr] at hw
    cases hw
  have hdst : Address.Within ⟨d, ((width * window : Nat) : Int) - 1, -1⟩ seg.size
      (width * (window - 1)) := by
    refine Address.within_of_le_signBound hbound fun i hi => ?_
    simp only [Address.position]
    omega
  have hsrc : Address.Within ⟨d, ((width * window : Nat) : Int) - 1 - width, -1⟩ seg.size
      (width * (window - 1)) := by
    refine Address.within_of_le_signBound hbound fun i hi => ?_
    simp only [Address.position]
    omega
  obtain ⟨hdl, hde⟩ := reaches_of_within hseg (fun _ => hw) hdst
  obtain ⟨hsl, hse⟩ := reaches_of_within hseg (fun h => absurd h Bool.false_ne_true) hsrc
  have hnone : ∀ (a : Address), a.segment = d → ∀ v, constantAt? context.segments a = some v →
      v ∈ S := by
    intro a ha v hv
    rw [constantAt?_eq_none (ha ▸ hseg) hconstant] at hv
    cases hv
  simp only [shift]
  split
  · exact Block.Owns.nil
  · split
    · exact copyLoop_owns hsl hdl (hnone _ rfl) 0
    · have howns : Block.Owns context S 0 (0 + 1 * (List.range (width * (window - 1))).length)
          ((List.range (width * (window - 1))).flatMap fun i => copyElement i
            ⟨d, Address.index ⟨d, ((width * window : Nat) : Int) - 1, -1⟩ i 0, 0⟩
            ⟨d, Address.index ⟨d, ((width * window : Nat) : Int) - 1 - width, -1⟩ i 0, 0⟩) := by
        refine Block.Owns.flatMap fun i j hz => ?_
        obtain ⟨hi, rfl⟩ : i < width * (window - 1) ∧ i = j := by
          simpa [List.getElem?_eq_some_iff] using hz
        rw [Nat.one_mul, Nat.zero_add]
        exact copyElement_owns (hse i hi) (hde i hi) (hnone _ rfl) i
      simpa using howns

end Buses

end Codegen.Layout

namespace Circuit

def constant? {α : Type} (c : Circuit α) (p : Pin) : Option α :=
  match c.cells[p.cell]? with
  | some (.constant values) => values[p.element]?
  | _ => none

/-- The numbers that code for a circuit may come to contain: the constants that are read, and what
an operation makes of two of them. -/
inductive Immediate {α : Type} [Scalar α] (c : Circuit α) (output : Bus) : α → Prop where
  | source {cell : Cell α} {b : Bus} {p : Pin} {v : α} :
      cell ∈ c.cells → b ∈ cell.sources → p ∈ b → c.constant? p = some v → Immediate c output v
  | output {p : Pin} {v : α} : p ∈ output → c.constant? p = some v → Immediate c output v
  | result {op : Arith} {lhs rhs : Bus} {i : Nat} {p q : Pin} {x y : α} :
      .binary op lhs rhs ∈ c.cells → lhs[i]? = some p → rhs[i]? = some q → c.constant? p = some x →
      c.constant? q = some y → Immediate c output (op.apply x y)

end Circuit

namespace Codegen

open Layout

variable {c : Circuit α} {output : Bus} {o : Options} {n : Nat}

theorem provides_of_has (ha : Admitted c output n)
    (hcells : ∀ cell ∈ c.cells.toList, cell.size ≤ signBound) {p : Pin} (hp : c.Has p) :
    (layoutOf c o).Provides (emit c output o n).segments
      (fun p => {v | c.constant? p = some v}) p := by
  obtain ⟨cell, hcell, hlt⟩ := hp
  have hbound := hcells cell (List.mem_of_getElem? (by simpa using hcell))
  cases hi : cell.isInput with
  | true =>
    obtain ⟨k, rfl⟩ : ∃ k, cell = .input k := by
      cases cell with
      | input k => exact ⟨k, rfl⟩
      | _ => cases hi
    have hk := ha.inputs _ (List.mem_of_getElem? (by simpa using hcell)) k rfl
    subst hk
    rw [Provides, home_of_isInput hcell hi, segments_zero]
    exact ⟨_, rfl, by simpa [Segment.size, Segment.zeros, Cell.size] using hlt,
      by simpa [Segment.size, Segment.zeros, Cell.size] using hbound, fun hr => by cases hr⟩
  | false =>
    obtain ⟨seg, hseg, hcontents, -⟩ := exists_cellSegment p.cell hi
    have hsize : seg.size = cell.size := by rw [Segment.size, hcontents, Cell.size_initial]
    refine ⟨seg, (home_of_not_isInput hcell hi).2.2.trans hseg, hsize ▸ hlt, hsize ▸ hbound,
      fun hr v hv => ?_⟩
    cases cell with
    | constant values =>
      show c.constant? p = some v
      rw [hcontents] at hv
      simpa [Circuit.constant?, hcell, Cell.initial] using hv
    | input _ => cases hi
    | _ =>
      cases hseg
      cases hr

theorem segment_of_computing (output : Bus) (n : Nat)
    (hcells : ∀ cell ∈ c.cells.toList, cell.size ≤ signBound) {id : Nat} {cell : Cell α}
    (hcell : c.cells[id]? = some cell) {body : Block α}
    (hbody : (layoutOf c o).cellBody? id cell = some body) :
    ∃ seg, (emit c output o n).segments[(layoutOf c o).home id]? = some seg ∧
    seg.role.isWritable = true ∧ seg.size = cell.size ∧ seg.size ≤ signBound := by
  have hi : cell.isInput = false := by cases cell <;> simp_all [cellBody?, Cell.isInput]
  obtain ⟨seg, hseg, hcontents, -⟩ := exists_cellSegment id hi
  have hsize : seg.size = cell.size := by rw [Segment.size, hcontents, Cell.size_initial]
  have hbound := hcells cell (List.mem_of_getElem? (by simpa using hcell))
  refine ⟨seg, (home_of_not_isInput hcell hi).2.2.trans hseg, ?_, hsize, hsize ▸ hbound⟩
  cases cell with
  | input _ => cases hi
  | constant _ => cases hbody
  | _ =>
    cases hseg
    rfl

/-- The code of a cell owns its registers. -/
theorem cellBody_owns (hc : c.Sound) (ha : Admitted c output n)
    (hcells : ∀ cell ∈ c.cells.toList, cell.size ≤ signBound) {id : Nat} {cell : Cell α}
    (hcell : c.cells[id]? = some cell) {body : Block α}
    (hbody : (layoutOf c o).cellBody? id cell = some body) :
    ∃ last, body.Owns (emit c output o n).context {v | c.Immediate output v} 0 last := by
  obtain ⟨seg, hseg, hw, hsize, hbound⟩ := segment_of_computing output n hcells hcell hbody
  have hmem : cell ∈ c.cells := Array.mem_of_getElem? hcell
  have hshape := hc.shape id cell hcell
  have hprovides : ∀ b ∈ cell.sources, ∀ p ∈ b, (layoutOf c o).Provides (emit c output o n).segments
      (fun p => {v | c.constant? p = some v}) p := fun b hb p hp =>
    provides_of_has ha hcells (hc.sources id cell hcell b hb p hp).2
  have hsource : ∀ b ∈ cell.sources, ∀ p ∈ b, {v | c.constant? p = some v} ⊆
      {v | c.Immediate output v} := fun b hb p hp v hv => .source hmem hb hp hv
  cases cell with
  | input _ | constant _ => cases hbody
  | delay source window =>
    cases hbody
    obtain ⟨-, hwindow⟩ := Cell.checkShape_delay hshape
    have hshift : Block.Owns (emit c output o n).context {v | c.Immediate output v} 0 _ _ :=
      shift_owns (l := layoutOf c o) hseg hw hsize hbound
    have hle : source.length ≤ seg.size := by
      rw [hsize]
      exact Nat.le_mul_of_pos_right _ (Nat.pos_of_ne_zero hwindow)
    have hcopy : ∀ r, ∃ last,
      Block.Owns (emit c output o n).context {v | c.Immediate output v} r last
        ((layoutOf c o).copy r ((layoutOf c o).home id) source) :=
      copy_owns (hprovides source (by simp [Cell.sources]))
      (hsource source (by simp [Cell.sources])) ⟨seg, hseg, hw, hle, hbound⟩
    obtain ⟨last, hcopy⟩ := hcopy _
    exact ⟨last, hshift.append hcopy⟩
  | binary op lhs rhs =>
    cases hbody
    have hlen := (Cell.checkShape_binary hshape).2
    exact combine_owns (hprovides lhs (by simp [Cell.sources]))
      (hprovides rhs (by simp [Cell.sources])) (hsource lhs (by simp [Cell.sources]))
      (hsource rhs (by simp [Cell.sources])) (fun i p q hp hq x hx y hy =>
        .result hmem hp hq hx hy) hlen ⟨seg, hseg, hw, hsize.ge, hbound⟩
  | accumulator source =>
    cases hbody
    have hown : ∀ p ∈ Bus.range id 0 source.length, c.Has p ∧ c.constant? p = none := by
      intro p hp
      obtain ⟨i, hi, rfl⟩ := List.mem_map.mp hp
      have hi : i < source.length := by simpa using hi
      exact ⟨⟨_, hcell, hi⟩, by simp [Circuit.constant?, hcell]⟩
    have hnone : ∀ p ∈ Bus.range id 0 source.length, ∀ v, c.constant? p ≠ some v := fun p hp v => by
      simp [(hown p hp).2]
    exact combine_owns (fun p hp => provides_of_has ha hcells (hown p hp).1)
      (hprovides source (by simp [Cell.sources])) (fun p hp v hv => absurd hv (hnone p hp v))
      (hsource source (by simp [Cell.sources]))
      (fun i p q hp _ x hx => absurd hx (hnone p (List.mem_of_getElem? hp) x)) (by simp)
      ⟨seg, hseg, hw, by simpa [Cell.size] using hsize.ge, hbound⟩

/-- Generated programs are tame. -/
theorem emit_tame (hc : c.Sound) (ha : Admitted c output n)
    (hcells : ∀ cell ∈ c.cells.toList, cell.size ≤ signBound)
    (houtput : output.length ≤ signBound) :
    ∀ r ∈ (emit c output o n).routines,
    r.Tame (emit c output o n).context {v | c.Immediate output v} ∧ r.Counted := by
  intro r hr
  rw [emit_routines, List.mem_append, List.mem_singleton] at hr
  rcases hr with hr | rfl
  · obtain ⟨id, cell, body, -, hcell, hbody, rfl⟩ := mem_routinesFrom.mp hr
    obtain ⟨last, howns⟩ := cellBody_owns hc ha hcells (by simpa using hcell) hbody
    exact ⟨howns.routine _ _, Routine.counted_sync _⟩
  · have hcalls : Block.Owns (emit c output o n).context {v | c.Immediate output v} 0 0
        (((layoutOf c o).routinesFrom o.programName 0 c.cells.toList).map fun r =>
          .call r.name) := by
      have hnames : (((layoutOf c o).routinesFrom o.programName 0 c.cells.toList).map
            fun r => (.call r.name : Inst α)) =
          (((layoutOf c o).routinesFrom o.programName 0 c.cells.toList).map Routine.name).map
          Inst.call := by simp
      rw [hnames]
      refine Block.Owns.calls fun name hname => ?_
      show name ∈ (emit c output o n).routineNames
      rw [Program.routineNames, emit_routines, List.map_append]
      exact List.mem_append_left _ hname
    have htakes : Takes (emit c output o n).segments (outputSegment c) output.length :=
      ⟨_, segments_output, rfl,
        by simp [Segment.size, Segment.zeros], by simpa [Segment.size, Segment.zeros]⟩
    have hcopy : ∃ last, Block.Owns (emit c output o n).context {v | c.Immediate output v} 0 last
        ((layoutOf c o).copy 0 (outputSegment c) output) :=
      copy_owns (fun p hp => provides_of_has ha hcells (ha.output p hp))
      (fun p hp v hv => .output hp hv) htakes 0
    obtain ⟨last, hcopy⟩ := hcopy
    exact ⟨(hcalls.append hcopy).routine _ _, Routine.counted_sync _⟩

theorem entry_mem_externalNames : entryName o.programName ∈ (emit c output o n).externalNames := by
  simp [Program.externalNames, emit_routines, entryRoutine, Routine.ofBody, Routine.sync]

end Codegen
end StreamStats
