import StreamStats.Proofs.Address
import StreamStats.Proofs.Layout
import StreamStats.Proofs.Memory

/-! What generated code does to a segment, element by element. Loops and straight-line code come to
the same row of writes, as long as no element is overwritten before it has been read. -/

namespace StreamStats

variable {α : Type}

namespace Memory

def writes (m : Memory α) (s : Nat) (place : Nat → Nat) (values : Nat → α) : Nat → Memory α
  | 0 => m
  | n + 1 => (writes m s place values n).write s (place n) (values n)

variable {m : Memory α} {s : Nat} {place : Nat → Nat} {values : Nat → α} {n : Nat}

@[simp] theorem size_writes : (m.writes s place values n).size = m.size := by
  induction n with
  | zero => rfl
  | succ n ih => simp [writes, ih]

@[simp] theorem sizeOf_writes (t : Nat) : (m.writes s place values n).sizeOf t = m.sizeOf t := by
  induction n with
  | zero => rfl
  | succ n ih => simp [writes, ih]

@[simp] theorem getElem?_writes_of_ne {t : Nat} (h : s ≠ t) :
    (m.writes s place values n)[t]? = m[t]? := by
  induction n with
  | zero => rfl
  | succ n ih => rw [writes, getElem?_write, if_neg h, ih]

variable [Scalar α]

@[simp] theorem value_writes_of_ne {t j : Nat} (h : s ≠ t ∨ ∀ i < n, place i ≠ j) :
    (m.writes s place values n).value t j = m.value t j := by
  induction n with
  | zero => rfl
  | succ n ih =>
    rw [writes, value_write_of_ne _ (h.imp_right fun h => h n (by omega))]
    exact ih (h.imp_right fun h i hi => h i (by omega))

theorem value_writes {i : Nat} (hi : i < n) (hlt : place i < m.sizeOf s)
    (hinj : ∀ k < n, i < k → place k ≠ place i) :
    (m.writes s place values n).value s (place i) = values i := by
  induction n with
  | zero => omega
  | succ n ih =>
    by_cases hin : i = n
    · subst hin
      rw [writes, value_write, if_pos ⟨rfl, rfl, by rwa [sizeOf_writes]⟩]
    · rw [writes, value_write_of_ne _ (Or.inr (hinj n (by omega) (by omega)))]
      exact ih (by omega) fun k hk => hinj k (by omega)

@[simp] theorem value_writes_id {i : Nat} (hi : i < n) (hlt : i < m.sizeOf s) :
    (m.writes s id values n).value s i = values i :=
  @value_writes _ m s id values n _ i hi hlt fun _ _ hk => Nat.ne_of_gt hk

theorem getElem?_eq_of_values {s : Nat} {xs : Array α} (hs : s < m.size) (hz : m.sizeOf s = xs.size)
    (hv : ∀ i, (h : i < xs.size) → m.value s i = xs[i]) : m[s]? = some xs := by
  rw [Array.getElem?_eq_getElem hs]
  simp only [sizeOf, Array.getElem?_eq_getElem hs, Option.map_some, Option.getD_some] at hz
  congr 1
  apply Array.ext hz
  intro i hi hi'
  have := hv i hi'
  simpa [value, Array.getElem?_eq_getElem hs, Array.getElem?_eq_getElem hi] using this

theorem value_eq {s i : Nat} {xs : Array α} (h : m[s]? = some xs) :
    m.value s i = xs[i]?.getD 0 := by
  simp [value, h]

end Memory

namespace Address

/-- At this count the address stands for this element. -/
structure At (a : Address) (count s i : Nat) : Prop where
  segment_eq : a.segment = s
  index_eq : a.index count 0 = i

theorem at_fixed {s i : Nat} (h : i < signBound) (count : Nat) : (fixed s i).At count s i := by
  refine ⟨rfl, ?_⟩
  have hi := signedIndex_of_lt h
  simp only [index, fixed, Int.mul_zero, Int.add_zero, hi]
  rw [← hi]
  simp [signedIndex, wrap]

theorem at_of_position {a : Address} {count i : Nat} (h : a.position count = i)
    (hi : i < signBound) :
    a.At count a.segment i := by
  refine ⟨rfl, ?_⟩
  rw [index_eq_wrap, Nat.add_zero, h]
  exact signedIndex_of_lt hi

variable {a : Address} {count s i : Nat} {m : Memory α}

theorem At.holds (h : a.At count s i) (hi : i < m.sizeOf s) : m.Holds a count 1 := by
  intro lane hl
  have hl : lane = 0 := by omega
  rw [hl, h.index_eq, h.segment_eq]
  omega

theorem At.valueAt [Scalar α] (h : a.At count s i) : m.valueAt a count 0 = m.value s i := by
  rw [Memory.valueAt, h.index_eq, h.segment_eq, Int.toNat_natCast]

theorem At.write (h : a.At count s i) (v : α) :
    m.write a.segment (a.index count 0).toNat v = m.write s i v := by
  rw [h.index_eq, h.segment_eq, Int.toNat_natCast]

end Address

namespace Exec

/-- A run that ends in this memory, whatever it leaves in registers. -/
def Ends {β : Type} (x : Exec α β) (m m' : Memory α) : Prop := ∃ b, x m = .ok b m'

theorem Ends.bind {β γ : Type} {x : Exec α β} {f : β → Exec α γ} {m m' m'' : Memory α}
    (h : Ends x m m') (hf : ∀ b, Ends (f b) m' m'') : Ends (x >>= f) m m'' := by
  obtain ⟨b, hb⟩ := h
  obtain ⟨c, hc⟩ := hf b
  exact ⟨c, (bind_of_ok hb f).trans hc⟩

@[simp] theorem ends_pure {β : Type} (b : β) (m : Memory α) : Ends (pure b) m m := ⟨b, rfl⟩

/-- Rounds that lead from memory to memory in a row. -/
theorem ends_iterate {β : Type} {f : Nat → β → Exec α β} {W : Nat → Memory α} (n : Nat) :
    ∀ (first : Nat), (∀ i < n, ∀ b, Ends (f (first + i) b) (W (first + i)) (W (first + i + 1))) →
      ∀ b, Ends (iterate f 1 n first b) (W first) (W (first + n)) := by
  induction n with
  | zero => exact fun _ _ b => ends_pure b _
  | succ n ih =>
    intro first h b
    have h0 := h 0 (by omega) b
    refine Ends.bind h0 fun b' => ?_
    have := ih (first + 1) (fun i hi b => by
      have := h (i + 1) (by omega) b
      rwa [Nat.add_comm i 1, ← Nat.add_assoc] at this) b'
    rwa [Nat.add_assoc first 1 n, Nat.add_comm 1 n] at this

variable [Scalar α] {call : String → Exec α Unit} {name : String} {count : Nat}

/-- Blocks that lead from memory to memory in a row, one for each of a list. -/
theorem ends_flatMap {β : Type} {W : Nat → Memory α} {block : β → Block α} {xs : List β}
    (h : ∀ i x, xs[i]? = some x → ∀ f, Ends (Block.exec call name count (block x) f) (W i)
      (W (i + 1))) (f : Frame α) :
    Ends (Block.exec call name count (xs.flatMap block) f) (W 0) (W xs.length) := by
  induction xs generalizing W f with
  | nil => exact ends_pure f _
  | cons x xs ih =>
    rw [List.flatMap_cons, Block.exec_append]
    exact (h 0 x rfl f).bind fun f' => ih (W := fun i => W (i + 1))
      (fun i y hy => h (i + 1) y (by simpa using hy)) f'

theorem ends_loop {W : Nat → Memory α} {n : Nat} {parallel : Bool} {body : Block α}
    (h : ∀ i < n, ∀ f, Ends (Block.exec call name i body f) (W i) (W (i + 1))) (f : Frame α) :
    Ends (Block.exec call name count [.loop n 1 parallel body] f) (W 0) (W n) := by
  have hit : iterations n 1 = n := by simp [iterations]
  have hl := ends_iterate (f := fun i f => Block.exec call name i body f) n 0
    (fun i hi f => by simpa using h i hi f) f
  simp only [Block.exec, Inst.exec, hit, Nat.max_self, Nat.zero_add] at hl ⊢
  exact hl.bind fun f' => ends_pure f' _

theorem ends_load {src : Address} {s i : Nat} {m : Memory α} (h : src.At count s i)
    (hi : i < m.sizeOf s) : load src count 1 m = .ok [m.value s i] m := by
  rw [load_of_holds (h.holds hi)]
  simp [h.valueAt]

omit [Scalar α] in
theorem ends_store {dst : Address} {d j : Nat} {m : Memory α} (h : dst.At count d j)
    (hj : j < m.sizeOf d) (v : α) : store dst count 1 [v] m = .ok () (m.write d j v) := by
  rw [store_of_holds (Or.inl rfl) (h.holds hj)]
  simp [stretch, Memory.writeFrom, h.write]

end Exec

namespace Frame

@[simp] theorem read_set_self (f : Frame α) (r : Reg) (xs : List α) (name : String) :
    Frame.read (f.set r xs) name (.reg r) = .ok xs := by
  simp [Frame.read]

@[simp] theorem read_set_of_ne (f : Frame α) {r r' : Reg} (h : r' ≠ r) (xs : List α)
    (name : String) :
    Frame.read (f.set r xs) name (.reg r') = f.read name (.reg r') := by
  simp [Frame.read, h]

end Frame

namespace Codegen.Layout

open Exec

variable [Scalar α] {call : String → Exec α Unit} {name : String} {count : Nat} {m : Memory α}

theorem copyElement_ends {dst src : Address} {d j s i : Nat} (hs : src.At count s i)
    (hi : i < m.sizeOf s) (hd : dst.At count d j) (hj : j < m.sizeOf d) (r : Reg) (f : Frame α) :
    Ends (Block.exec call name count (copyElement r dst src) f) m (m.write d j (m.value s i)) := by
  refine ⟨f.set r [m.value s i], ?_⟩
  simp only [copyElement, Block.exec, Inst.exec, bind_assoc, pure_bind]
  rw [bind_of_ok (ends_load hs hi), Frame.read_set_self, bind_of_ok (lift_ok_apply _ m),
    bind_of_ok (ends_store hd hj _), pure_apply]

theorem combineElement_ends {dst lhs rhs : Address} {d j s i t k : Nat} (hl : lhs.At count s i)
    (hi : i < m.sizeOf s) (hr : rhs.At count t k) (hk : k < m.sizeOf t) (hd : dst.At count d j)
    (hj : j < m.sizeOf d) (r : Reg) (op : Arith) (f : Frame α) :
    Ends (Block.exec call name count (combineElement r op dst lhs rhs) f) m
      (m.write d j (op.apply (m.value s i) (m.value t k))) := by
  have hne : r ≠ r + 1 := Nat.ne_of_lt (Nat.lt_succ_self r)
  have hop : op.lanes [m.value s i] [m.value t k] = .ok [op.apply (m.value s i) (m.value t k)] := by
    simp [Arith.lanes]
  refine ⟨((f.set r [m.value s i]).set (r + 1) [m.value t k]).set (r + 2)
    [op.apply (m.value s i) (m.value t k)], ?_⟩
  simp only [combineElement, Block.exec, Inst.exec, bind_assoc, pure_bind]
  rw [bind_of_ok (ends_load hl hi), bind_of_ok (ends_load hr hk), Frame.read_set_of_ne _ hne,
    Frame.read_set_self, bind_of_ok (lift_ok_apply _ m), Frame.read_set_self,
    bind_of_ok (lift_ok_apply _ m), hop, bind_of_ok (lift_ok_apply _ m), Frame.read_set_self,
    bind_of_ok (lift_ok_apply _ m), bind_of_ok (ends_store hd hj _), pure_apply]

omit [Scalar α] in
theorem getElem?_of_follows {cell : Nat} {stride : Int} {b : Bus} {position : Int}
    (h : Bus.follows cell stride position b = true) {i : Nat} {p : Pin} (hp : b[i]? = some p) :
    p.cell = cell ∧ signedIndex p.element = position + i * stride := by
  induction b generalizing position i with
  | nil => simp at hp
  | cons q b ih =>
    simp only [Bus.follows, Bool.and_eq_true, beq_iff_eq] at h
    obtain ⟨⟨hc, he⟩, hr⟩ := h
    cases i with
    | zero =>
      cases hp
      simpa using ⟨hc, he⟩
    | succ i =>
      obtain ⟨hpc, hpe⟩ := ih hr (by simpa using hp)
      refine ⟨hpc, ?_⟩
      rw [hpe]
      push_cast
      ring

omit [Scalar α] in
/-- The address of an even bus is at one pin after another. -/
theorem position_of_moving? {l : Layout} {b : Bus} {a : Address} (h : l.moving? b = some a)
    {i : Nat} {p : Pin} (hp : b[i]? = some p) (hlt : p.element < signBound) :
    a.segment = l.home p.cell ∧ a.position i = p.element := by
  obtain ⟨g, hg, rfl⟩ := Option.map_eq_some_iff.mp h
  cases b with
  | nil => simp at hp
  | cons q b =>
    simp only [Bus.progression?] at hg
    split at hg
    · rename_i hf
      cases hg
      obtain ⟨hc, he⟩ := getElem?_of_follows hf hp
      rw [hc]
      rw [signedIndex_of_lt hlt] at he
      refine ⟨rfl, ?_⟩
      simp only [Address.position]
      exact he.symm
    · cases hg

omit [Scalar α] in
/-- The address of an even bus stands for one pin after another. -/
theorem at_of_moving? {l : Layout} {b : Bus} {a : Address} (h : l.moving? b = some a) {i : Nat}
    {p : Pin} (hp : b[i]? = some p) (hlt : p.element < signBound) :
    a.At i (l.home p.cell) p.element := by
  obtain ⟨hs, hposition⟩ := position_of_moving? h hp hlt
  rw [← hs]
  exact Address.at_of_position hposition hlt

omit [Scalar α] in
theorem at_element {l : Layout} {p : Pin} (hlt : p.element < signBound) (count : Nat) :
    (l.element p).At count (l.home p.cell) p.element :=
  Address.at_fixed hlt count

omit [Scalar α] in
theorem at_counting {d i : Nat} (hlt : i < signBound) : Address.At ⟨d, 0, 1⟩ i d i :=
  Address.at_of_position (a := ⟨d, 0, 1⟩) (by simp [Address.position]) hlt

/-- The value of the pin at a position of a bus. -/
def busValue (l : Layout) (m : Memory α) (b : Bus) (i : Nat) : α :=
  ((b[i]?).map fun p => m.value (l.home p.cell) p.element).getD 0

theorem busValue_eq {l : Layout} {b : Bus} {i : Nat} {p : Pin} (h : b[i]? = some p) :
    l.busValue m b i = m.value (l.home p.cell) p.element := by
  simp [busValue, h]

/-- Every pin of the bus exists in memory, and a write to the front of segment `d` comes to it no
sooner than to its own position on the bus. -/
def Ready (l : Layout) (m : Memory α) (d : Nat) (b : Bus) : Prop :=
  ∀ (i : Nat) (p : Pin), b[i]? = some p →
    p.element < m.sizeOf (l.home p.cell) ∧ (d ≠ l.home p.cell ∨ i ≤ p.element)

theorem Ready.value_writes {l : Layout} {d : Nat} {b : Bus} (h : l.Ready m d b) {values : Nat → α}
    {i : Nat} {p : Pin} (hp : b[i]? = some p) :
    (m.writes d id values i).value (l.home p.cell) p.element = l.busValue m b i := by
  rw [busValue_eq hp]
  apply Memory.value_writes_of_ne
  refine (h i p hp).2.imp_right fun hle k hk => ?_
  simp only [id]
  omega

omit [Scalar α] in
theorem Ready.lt_signBound {l : Layout} {d : Nat} {b : Bus} (h : l.Ready m d b)
    (hm : ∀ s, m.sizeOf s ≤ signBound) {i : Nat} {p : Pin} (hp : b[i]? = some p) :
    p.element < signBound :=
  Nat.lt_of_lt_of_le (h i p hp).1 (hm _)

theorem copy_ends {l : Layout} {d : Nat} {b : Bus} (hb : l.Ready m d b) (hd : b.length ≤ m.sizeOf d)
    (hm : ∀ s, m.sizeOf s ≤ signBound) (r : Reg) (f : Frame α) :
    Ends (Block.exec call name 0 (l.copy r d b) f) m (m.writes d id (l.busValue m b) b.length) := by
  have hlt : ∀ {i : Nat} {p : Pin}, b[i]? = some p → i < m.sizeOf d := fun hp =>
    Nat.lt_of_lt_of_le (List.getElem?_eq_some_iff.mp hp).1 hd
  have hstep : ∀ {i count : Nat} {p : Pin} {src dst : Address} (r : Reg), b[i]? = some p →
      src.At count (l.home p.cell) p.element → dst.At count d i → ∀ f,
      Ends (Block.exec call name count (copyElement r dst src) f)
        (m.writes d id (l.busValue m b) i) (m.writes d id (l.busValue m b) (i + 1)) := by
    intro i count p src dst r hp hs ht f
    have h := @copyElement_ends _ _ call name _ (m.writes d id (l.busValue m b) i) _ _ _ _ _ _ hs
      (by simpa using (hb i p hp).1) ht (by simpa using hlt hp) r f
    rwa [hb.value_writes hp] at h
  unfold copy
  split
  · rename_i a hmoving _
    refine ends_loop (W := m.writes d id (l.busValue m b)) (fun i hi f => ?_) f
    have hp := List.getElem?_eq_getElem hi
    exact hstep r hp (at_of_moving? hmoving hp (hb.lt_signBound hm hp))
      (at_counting (Nat.lt_of_lt_of_le (hlt hp) (hm d))) f
  · rw [← @List.length_zipIdx _ b 0]
    refine ends_flatMap (W := m.writes d id (l.busValue m b)) ?_ f
    rintro i ⟨p, j⟩ hz f
    obtain ⟨hp, rfl⟩ : b[i]? = some p ∧ j = i := by simpa [List.getElem?_zipIdx, eq_comm] using hz
    exact hstep (r + j) hp (at_element (hb.lt_signBound hm hp) 0)
      (Address.at_fixed (Nat.lt_of_lt_of_le (hlt hp) (hm d)) 0) f

theorem combine_ends {l : Layout} {op : Arith} {d : Nat} {lhs rhs : Bus} (hl : l.Ready m d lhs)
    (hr : l.Ready m d rhs) (hlen : lhs.length = rhs.length) (hd : lhs.length ≤ m.sizeOf d)
    (hm : ∀ s, m.sizeOf s ≤ signBound) (f : Frame α) :
    Ends (Block.exec call name 0 (l.combine op d lhs rhs) f) m
      (m.writes d id (fun i => op.apply (l.busValue m lhs i) (l.busValue m rhs i)) lhs.length) := by
  have hlt : ∀ {i : Nat} {p : Pin}, lhs[i]? = some p → i < m.sizeOf d := fun hp =>
    Nat.lt_of_lt_of_le (List.getElem?_eq_some_iff.mp hp).1 hd
  generalize hW : m.writes d id (fun i => op.apply (l.busValue m lhs i) (l.busValue m rhs i)) = W
  have hsize : ∀ i s, (W i).sizeOf s = m.sizeOf s := by simp [← hW]
  have hstep : ∀ {i count : Nat} {p q : Pin} {a b dst : Address} (r : Reg), lhs[i]? = some p →
      rhs[i]? = some q → a.At count (l.home p.cell) p.element →
      b.At count (l.home q.cell) q.element → dst.At count d i → ∀ f,
      Ends (Block.exec call name count (combineElement r op dst a b) f) (W i) (W (i + 1)) := by
    intro i count p q a b dst r hp hq ha hb ht f
    have h := @combineElement_ends _ _ call name _ (W i) _ _ _ _ _ _ _ _ _ ha
      (by simpa [hsize] using (hl i p hp).1) hb (by simpa [hsize] using (hr i q hq).1) ht
      (by simpa [hsize] using hlt hp) r op f
    rw [← hW] at h ⊢
    rwa [hl.value_writes hp, hr.value_writes hq] at h
  have hW0 : W 0 = m := by simp [← hW, Memory.writes]
  rw [← hW0]
  unfold combine
  split
  · rename_i a b ha hb _
    refine ends_loop (fun i hi f => ?_) f
    have hp := List.getElem?_eq_getElem hi
    have hq := List.getElem?_eq_getElem (hlen ▸ hi)
    exact hstep 0 hp hq (at_of_moving? ha hp (hl.lt_signBound hm hp))
      (at_of_moving? hb hq (hr.lt_signBound hm hq))
      (at_counting (Nat.lt_of_lt_of_le (hlt hp) (hm d))) f
  · have hcount : lhs.length = (lhs.zip rhs).zipIdx.length := by simp [hlen]
    rw [hcount]
    refine ends_flatMap ?_ f
    rintro i ⟨⟨p, q⟩, j⟩ hz f
    obtain ⟨hz, rfl⟩ : (lhs.zip rhs)[i]? = some (p, q) ∧ j = i := by
      simpa [List.getElem?_zipIdx, eq_comm] using hz
    obtain ⟨hp, hq⟩ : lhs[j]? = some p ∧ rhs[j]? = some q := List.getElem?_zip_eq_some.mp hz
    exact hstep (3 * j) hp hq (at_element (hl.lt_signBound hm hp) 0)
      (at_element (hr.lt_signBound hm hq) 0)
      (Address.at_fixed (Nat.lt_of_lt_of_le (hlt hp) (hm d)) 0) f

/-- Moving elements up by `width`, from the last one of `size` down, overwrites none that is still
to move. -/
theorem moveUp_ends {d width size : Nat} (hsize : m.sizeOf d = size) {i count : Nat}
    (hi : i + width < size) {src dst : Address} (hs : src.At count d (size - 1 - width - i))
    (hd : dst.At count d (size - 1 - i)) (r : Reg) (f : Frame α) :
    Ends (Block.exec call name count (copyElement r dst src) f)
      (m.writes d (size - 1 - ·) (fun i => m.value d (size - 1 - width - i)) i)
      (m.writes d (size - 1 - ·) (fun i => m.value d (size - 1 - width - i)) (i + 1)) := by
  have h := @copyElement_ends _ _ call name _
    (m.writes d (size - 1 - ·) (fun i => m.value d (size - 1 - width - i)) i) _ _ _ _ _ _ hs
    (by rw [Memory.sizeOf_writes]; omega) hd (by rw [Memory.sizeOf_writes]; omega) r f
  rwa [Memory.value_writes_of_ne (Or.inr fun k hk => by omega)] at h

theorem shift_ends {l : Layout} {d width window : Nat} (hsize : m.sizeOf d = width * window)
    (hm : width * window ≤ signBound) (f : Frame α) :
    Ends (Block.exec call name 0 (l.shift d width window).1 f) m
      (m.writes d (width * window - 1 - ·) (fun i => m.value d (width * window - 1 - width - i))
        (width * (window - 1))) := by
  have hmoved : width * (window - 1) = width * window - width := by rw [Nat.mul_sub, Nat.mul_one]
  generalize hW : m.writes d (width * window - 1 - ·)
    (fun i => m.value d (width * window - 1 - width - i)) = W
  have hW0 : W 0 = m := by simp [← hW, Memory.writes]
  have hsrc : ∀ i < width * (window - 1),
      Address.At ⟨d, ((width * window : Nat) : Int) - 1 - width, -1⟩ i d
      (width * window - 1 - width - i) := by
    intro i hi
    exact Address.at_of_position (a := ⟨d, ((width * window : Nat) : Int) - 1 - width, -1⟩)
      (by simp only [Address.position]; omega) (by omega)
  have hdst : ∀ i < width * (window - 1),
      Address.At ⟨d, ((width * window : Nat) : Int) - 1, -1⟩ i d (width * window - 1 - i) := by
    intro i hi
    exact Address.at_of_position (a := ⟨d, ((width * window : Nat) : Int) - 1, -1⟩)
      (by simp only [Address.position]; omega) (by omega)
  conv => arg 2; rw [← hW0]
  simp only [shift]
  split
  · rename_i h0
    rw [h0]
    exact ends_pure f _
  · split
    · refine ends_loop (fun i hi f => ?_) f
      rw [← hW]
      exact moveUp_ends hsize (by omega) (hsrc i hi) (hdst i hi) 0 f
    · conv => arg 3; rw [← @List.length_range (width * (window - 1))]
      refine ends_flatMap ?_ f
      intro i j hz f
      obtain ⟨hi, rfl⟩ : i < width * (window - 1) ∧ i = j := by
        simpa [List.getElem?_eq_some_iff] using hz
      rw [(hsrc i hi).index_eq, (hdst i hi).index_eq, ← hW]
      have hfixed : ∀ {j : Nat}, j < signBound → Address.At ⟨d, j, 0⟩ 0 d j := fun hj =>
        Address.at_of_position (a := ⟨d, _, 0⟩) (by simp [Address.position]) hj
      exact moveUp_ends hsize (by omega) (hfixed (by omega)) (hfixed (by omega)) i f

end Codegen.Layout
end StreamStats
