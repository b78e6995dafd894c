import Mathlib.Data.Set.Basic
import StreamStats.Proofs.Outcome
import StreamStats.Simulator

/-! Circuits that came about by placing cells. Every cell reads elements of earlier cells that
exist, so cells settle one after another, and a simulator keeps as many values for every cell as the
cell has elements. -/

namespace StreamStats

theorem getElem?_push_eq_some_iff {β : Type} {xs : Array β} {x y : β} {i : Nat} :
    (xs.push x)[i]? = some y ↔ (i = xs.size ∧ y = x) ∨ (i ≠ xs.size ∧ xs[i]? = some y) := by
  rw [Array.getElem?_push]
  split <;> simp_all [eq_comm]

variable {α : Type}

namespace Circuit

/-- The circuits that placing cells leads to. A cell that is refused leaves the circuit as it is. -/
inductive Built : Circuit α → Prop where
  | empty : Built empty
  | place {c c' : Circuit α} {cell : Cell α} {bus : Bus} :
      Built c → c.place cell = .ok (bus, c') → Built c'

def Has (c : Circuit α) (p : Pin) : Prop :=
  ∃ cell, c.cells[p.cell]? = some cell ∧ p.element < cell.size

@[simp] theorem checkPin_eq_ok_iff {c : Circuit α} {p : Pin} : c.checkPin p = .ok () ↔ c.Has p := by
  unfold checkPin Has
  rw [c.sizes_eq, Array.getElem?_map]
  cases c.cells[p.cell]? with
  | none => simp
  | some cell =>
    simp only [Option.map_some, Option.some.injEq, exists_eq_left']
    split <;> simp_all

@[simp] theorem check_eq_ok_iff {c : Circuit α} {b : Bus} :
    c.check b = .ok () ↔ ∀ p ∈ b, c.Has p := by
  unfold check
  rw [forM_eq_ok_iff]
  simp only [checkPin_eq_ok_iff]

@[simp] theorem place_eq_ok_iff {c c' : Circuit α} {cell : Cell α} {bus : Bus} :
    c.place cell = .ok (bus, c') ↔ cell.checkShape = .ok () ∧
      (∀ b ∈ cell.sources, ∀ p ∈ b, c.Has p) ∧ bus = Bus.range c.size 0 cell.size ∧
      c'.cells = c.cells.push cell := by
  simp only [← check_eq_ok_iff, ← forM_eq_ok_iff (f := c.check)]
  constructor
  · intro h
    obtain ⟨⟨⟩, hs, h⟩ := ok_of_bind h
    obtain ⟨⟨⟩, hc, h⟩ := ok_of_bind h
    cases h
    exact ⟨hs, hc, rfl, rfl⟩
  · rintro ⟨hs, hc, rfl, hcells⟩
    unfold place
    rw [hs]
    show (cell.sources.forM c.check >>= _) = _
    rw [hc]
    exact congrArg (fun d => Except.ok (Bus.range c.size 0 cell.size, d))
      (eq_of_cells_eq hcells.symm)

theorem has_push {c c' : Circuit α} {cell : Cell α} (h : c'.cells = c.cells.push cell) {p : Pin}
    (hp : c.Has p) : c'.Has p := by
  obtain ⟨src, hs, hlt⟩ := hp
  refine ⟨src, ?_, hlt⟩
  have := (Array.getElem?_eq_some_iff.mp hs).1
  rw [h, Array.getElem?_push, if_neg (by omega), hs]

/-- Cells are of a possible shape and read what was there before them. -/
structure Sound (c : Circuit α) : Prop where
  shape : ∀ (id : Nat) (cell : Cell α), c.cells[id]? = some cell → cell.checkShape = .ok ()
  sources : ∀ (id : Nat) (cell : Cell α), c.cells[id]? = some cell → ∀ b ∈ cell.sources, ∀ p ∈ b,
    p.cell < id ∧ c.Has p

theorem Sound.push {c c' : Circuit α} (hc : c.Sound) {cell : Cell α} {bus : Bus}
    (h : c.place cell = .ok (bus, c')) : c'.Sound := by
  obtain ⟨hshape, hsources, -, hcells⟩ := place_eq_ok_iff.mp h
  constructor
  · intro id cell' hid
    rw [hcells, getElem?_push_eq_some_iff] at hid
    rcases hid with ⟨-, rfl⟩ | ⟨-, hid⟩
    · exact hshape
    · exact hc.shape id cell' hid
  · intro id cell' hid b hb p hp
    rw [hcells, getElem?_push_eq_some_iff] at hid
    rcases hid with ⟨rfl, rfl⟩ | ⟨-, hid⟩
    · obtain ⟨src, hs, -⟩ := hsources b hb p hp
      exact ⟨(Array.getElem?_eq_some_iff.mp hs).1, has_push hcells (hsources b hb p hp)⟩
    · obtain ⟨hlt, hhas⟩ := hc.sources id cell' hid b hb p hp
      exact ⟨hlt, has_push hcells hhas⟩

theorem Built.sound {c : Circuit α} (h : c.Built) : c.Sound := by
  induction h with
  | empty => constructor <;> simp [Circuit.empty]
  | place _ hp ih => exact ih.push hp

def ofCells (cells : Array (Cell α)) : Circuit α := ⟨cells, cells.map Cell.size, rfl⟩

@[simp] theorem built_ofCells_empty : (ofCells #[] : Circuit α).Built :=
  (eq_of_cells_eq rfl : empty = ofCells #[]) ▸ .empty

theorem built_ofCells_push {cells : Array (Cell α)} {cell : Cell α} (h : (ofCells cells).Built)
    (hshape : cell.checkShape = .ok ())
    (hsources : ∀ b ∈ cell.sources, ∀ p ∈ b, (ofCells cells).Has p) :
    (ofCells (cells.push cell)).Built :=
  h.place (place_eq_ok_iff.mpr ⟨hshape, hsources, rfl, rfl⟩)

end Circuit

namespace Cell

@[simp] theorem inputSize?_eq_some_iff {cell : Cell α} {n : Nat} :
    cell.inputSize? = some n ↔ cell = .input n := by
  cases cell <;> simp [inputSize?]

end Cell

namespace Circuit

variable {c : Circuit α} {n : Nat}

theorem input_mem (h : c.inputSize? = some n) : .input n ∈ c.cells := by
  obtain ⟨cell, hcell, hsize⟩ := Array.exists_of_findSome?_eq_some h
  exact Cell.inputSize?_eq_some_iff.mp hsize ▸ hcell

theorem exists_inputSize?_iff : (∃ n, c.inputSize? = some n) ↔ ∃ n, .input n ∈ c.cells := by
  constructor
  · rintro ⟨n, hn⟩
    exact ⟨n, input_mem hn⟩
  · rintro ⟨n, hn⟩
    rw [← Option.isSome_iff_exists, inputSize?, Array.isSome_findSome?]
    exact Array.any_eq_true'.mpr ⟨_, hn, rfl⟩

end Circuit

namespace Cell

theorem checkShape_delay {source : Bus} {window : Nat}
    (h : (Cell.delay source window : Cell α).checkShape = .ok ()) : source ≠ [] ∧ window ≠ 0 := by
  simp only [checkShape] at h
  split at h
  · cases h
  · split at h
    · cases h
    · exact ⟨‹_›, ‹_›⟩

theorem checkShape_binary {op : Arith} {lhs rhs : Bus}
    (h : (Cell.binary op lhs rhs : Cell α).checkShape = .ok ()) :
    lhs ≠ [] ∧ lhs.length = rhs.length := by
  simp only [checkShape] at h
  split at h
  · cases h
  · split at h
    · cases h
    · exact ⟨‹_›, not_ne_iff.mp ‹_›⟩

@[simp] theorem size_initial [Scalar α] (cell : Cell α) : cell.initial.size = cell.size := by
  cases cell <;> simp [initial, size]

/-- A cell settles on as many values as it has elements. -/
@[simp] theorem size_settle [Scalar α] {cell : Cell α} (hshape : cell.checkShape = .ok ())
    (levels : Levels α) {sample : List α} (hsample : ∀ n, cell.inputSize? = some n →
      n = sample.length) {last : Array α}
    (hlast : last.size = cell.size) : (cell.settle levels sample last).size = cell.size := by
  cases cell with
  | input n => simp [settle, size, hsample n rfl]
  | constant values => exact hlast
  | delay source window =>
    obtain ⟨-, hw⟩ := checkShape_delay hshape
    simp only [size] at hlast
    have hle : source.length * (window - 1) ≤ source.length * window :=
      Nat.mul_le_mul_left _ (Nat.sub_le _ _)
    have hsum : source.length + source.length * (window - 1) = source.length * window := by
      rw [Nat.mul_sub, Nat.mul_one]
      have := Nat.le_mul_of_pos_right source.length (Nat.pos_of_ne_zero hw)
      omega
    simp only [settle, size, Array.size_append, List.size_toArray, Levels.length_read,
      Array.size_extract, hlast]
    omega
  | binary op lhs rhs =>
    have := (checkShape_binary hshape).2
    simp [settle, size, this]
  | accumulator source =>
    simp only [size] at hlast
    simp [settle, size, hlast]

end Cell

namespace Simulator

variable [Scalar α]

/-- The values kept are as many as the cells have elements. -/
structure Fits (c : Circuit α) (levels : Levels α) : Prop where
  size_eq : levels.size = c.cells.size
  sizes : ∀ (id : Nat) (cell : Cell α) (values : Array α), c.cells[id]? = some cell →
    levels[id]? = some values → values.size = cell.size

omit [Scalar α] in
theorem Fits.exists_values {c : Circuit α} {levels : Levels α} (h : Fits c levels) {id : Nat}
    {cell : Cell α} (hid : c.cells[id]? = some cell) :
    ∃ values, levels[id]? = some values ∧ values.size = cell.size := by
  have hlt : id < levels.size := h.size_eq ▸ (Array.getElem?_eq_some_iff.mp hid).1
  exact ⟨levels[id], Array.getElem?_eq_getElem hlt,
    h.sizes id cell _ hid (Array.getElem?_eq_getElem hlt)⟩

@[simp] theorem fits_ofCircuit (c : Circuit α) : Fits c (ofCircuit c).levels := by
  refine ⟨by simp [ofCircuit], fun id cell values hid hv => ?_⟩
  simp only [ofCircuit, Array.getElem?_map, hid, Option.map_some, Option.some.injEq] at hv
  exact hv ▸ cell.size_initial

theorem size_settleAll {sample : List α} {settled : Levels α} {cells : List (Cell α)}
    {lasts : List (Array α)} (h : cells.length = lasts.length) :
    (settleAll sample settled cells lasts).size = settled.size + cells.length := by
  induction cells generalizing settled lasts with
  | nil => simp [settleAll]
  | cons cell cells ih =>
    cases lasts with
    | nil => simp at h
    | cons last lasts =>
      rw [settleAll, ih (by simpa using h), Array.size_push, List.length_cons]
      omega

omit [Scalar α] in
theorem checkSample_eq_ok_iff {c : Circuit α} {sample : List α} :
    checkSample c sample = .ok () ↔ c.inputSize? ≠ none ∧
      ∀ cell ∈ c.cells.toList, ∀ n, cell.inputSize? = some n → n = sample.length := by
  unfold checkSample
  by_cases hn : c.inputSize? = none
  · simp [hn, throw, throwThe, MonadExceptOf.throw, bind, Except.bind]
  · simp only [ne_eq, hn, not_false_iff, true_and]
    refine Iff.trans forM_eq_ok_iff ?_
    refine forall₂_congr fun cell _ => ?_
    cases cell.inputSize? with
    | none => simp
    | some n => by_cases h : n = sample.length <;> simp [h]

theorem step_of_observe {s s' : Simulator α} {output : Bus} {sample values : List α}
    (h : s.observe sample output = .ok (values, s')) : s.step sample = .ok s' := by
  obtain ⟨-, -, h⟩ := ok_of_bind h
  obtain ⟨s'', hstep, h⟩ := ok_of_bind h
  cases h
  exact hstep

end Simulator

end StreamStats
