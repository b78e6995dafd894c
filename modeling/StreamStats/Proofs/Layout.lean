import Mathlib.Data.Set.Basic
import StreamStats.Codegen
import StreamStats.Proofs.Circuits

/-! Where cells live. All input cells share the first segment, every other cell has one of its own,
of its size and of a role that fits its kind, and the output follows behind them. -/

namespace StreamStats

variable {α : Type}

namespace Cell

def isInput : Cell α → Bool
  | input _ => true
  | _ => false

end Cell

namespace Codegen

@[simp] theorem homes_cons_of_input {cell : Cell α} (h : cell.isInput = true) (next : Nat)
    (cells : List (Cell α)) :
    homes next (cell :: cells) = 0 :: homes next cells := by
  cases cell <;> simp_all [homes, Cell.isInput]

@[simp] theorem homes_cons_of_not_input {cell : Cell α} (h : cell.isInput = false) (next : Nat)
    (cells : List (Cell α)) : homes next (cell :: cells) = next :: homes (next + 1) cells := by
  cases cell <;> simp_all [homes, Cell.isInput]

variable [Scalar α]

def ownSegments (id : Nat) (cells : List (Cell α)) : List (Segment α) :=
  (cells.zipIdx id).filterMap fun (cell, id) => cellSegment? id cell

@[simp] theorem ownSegments_cons (id : Nat) (cell : Cell α) (cells : List (Cell α)) :
    ownSegments id (cell :: cells) = (cellSegment? id cell).toList ++
      ownSegments (id + 1) cells := by
  simp only [ownSegments, List.zipIdx_cons]
  cases h : cellSegment? id cell <;> simp [h]

/-- A cell that is no input has a segment that starts as the cell does. -/
theorem exists_cellSegment (id : Nat) {cell : Cell α} (h : cell.isInput = false) :
    ∃ seg, cellSegment? id cell = some seg ∧ seg.contents = cell.initial ∧
      seg.role ≠ .input ∧ seg.role ≠ .output := by
  cases cell <;> simp_all [cellSegment?, Segment.zeros, Cell.initial, Cell.isInput]

theorem contents_of_cellSegment? {id : Nat} {cell : Cell α} {seg : Segment α}
    (h : cellSegment? id cell = some seg) :
    seg.contents = cell.initial ∧ seg.role ≠ .input ∧ seg.role ≠ .output := by
  have hc : cell.isInput = false := by cases cell <;> simp_all [cellSegment?, Cell.isInput]
  obtain ⟨seg', hs, hseg⟩ := exists_cellSegment id hc
  rw [h] at hs
  cases hs
  exact hseg

omit [Scalar α] in
theorem home_input {cells : List (Cell α)} {next i : Nat} {cell : Cell α}
    (hi : cells[i]? = some cell) (hc : cell.isInput = true) : (homes next cells)[i]? = some 0 := by
  induction cells generalizing next i with
  | nil => simp at hi
  | cons head cells ih =>
    cases i with
    | zero =>
      cases hi
      rw [homes_cons_of_input hc, List.getElem?_cons_zero]
    | succ i =>
      have hi : cells[i]? = some cell := by simpa using hi
      cases head <;> simpa [homes] using ih hi

theorem home_own {cells : List (Cell α)} (next id : Nat) {i : Nat} {cell : Cell α}
    (hi : cells[i]? = some cell) (hc : cell.isInput = false) :
    ∃ k, (homes next cells)[i]? = some (next + k) ∧
      (ownSegments id cells)[k]? = cellSegment? (id + i) cell := by
  induction cells generalizing next id i with
  | nil => simp at hi
  | cons head cells ih =>
    cases i with
    | zero =>
      cases hi
      refine ⟨0, by simp [homes_cons_of_not_input hc], ?_⟩
      rw [ownSegments_cons]
      cases cell <;> simp_all [cellSegment?, Cell.isInput]
    | succ i =>
      have hi : cells[i]? = some cell := by simpa using hi
      rw [ownSegments_cons]
      cases hh : head.isInput with
      | true =>
        obtain ⟨k, hk, hs⟩ := ih next (id + 1) hi
        refine ⟨k, ?_, ?_⟩
        · rw [homes_cons_of_input hh, List.getElem?_cons_succ, hk]
        · rw [Nat.add_right_comm] at hs
          cases head <;> simp_all [cellSegment?, Cell.isInput, Nat.add_assoc]
      | false =>
        obtain ⟨k, hk, hs⟩ := ih (next + 1) (id + 1) hi
        refine ⟨k + 1, ?_, ?_⟩
        · rw [homes_cons_of_not_input hh, List.getElem?_cons_succ, hk, Nat.add_right_comm,
            Nat.add_assoc]
        · rw [Nat.add_right_comm] at hs
          cases head <;> simp_all [cellSegment?, Cell.isInput, Nat.add_assoc]

omit [Scalar α] in
theorem home_eq_zero_or_le {cells : List (Cell α)} {next i a : Nat}
    (h : (homes next cells)[i]? = some a) : a = 0 ∨ next ≤ a := by
  induction cells generalizing next i with
  | nil => simp [homes] at h
  | cons head cells ih =>
    cases hh : head.isInput with
    | true =>
      rw [homes_cons_of_input hh] at h
      cases i with
      | zero => simp_all
      | succ i => exact ih (by simpa using h)
    | false =>
      rw [homes_cons_of_not_input hh] at h
      cases i with
      | zero => simp_all
      | succ i =>
        rcases ih (by simpa using h) with h | h
        · exact Or.inl h
        · exact Or.inr (by omega)

omit [Scalar α] in
/-- No two cells but inputs share a home. -/
theorem home_injective {cells : List (Cell α)} {next i i' a : Nat} (hn : next ≠ 0) (ha : a ≠ 0)
    (h : (homes next cells)[i]? = some a) (h' : (homes next cells)[i']? = some a) : i = i' := by
  induction cells generalizing next i i' with
  | nil => simp [homes] at h
  | cons head cells ih =>
    cases hh : head.isInput with
    | true =>
      rw [homes_cons_of_input hh] at h h'
      cases i with
      | zero => exact absurd (by simpa using h.symm) ha
      | succ i =>
        cases i' with
        | zero => exact absurd (by simpa using h'.symm) ha
        | succ i' => exact congrArg (· + 1) (ih hn (by simpa using h) (by simpa using h'))
    | false =>
      rw [homes_cons_of_not_input hh] at h h'
      have hlater : ∀ {j}, (homes (next + 1) cells)[j]? = some a → next < a := fun hj =>
        (home_eq_zero_or_le hj).resolve_left ha
      cases i with
      | zero =>
        cases i' with
        | zero => rfl
        | succ i' =>
          have := hlater (by simpa using h')
          simp at h
          omega
      | succ i =>
        cases i' with
        | zero =>
          have := hlater (by simpa using h)
          simp at h'
          omega
        | succ i' =>
          exact congrArg (· + 1) (ih (Nat.succ_ne_zero next) (by simpa using h) (by simpa using h'))

end Codegen
end StreamStats
