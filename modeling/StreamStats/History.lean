/-! The last few samples of a stream, held in a ring of slots. All samples have the width of the
first one recorded. `total` counts every sample since the start, held or not. -/

namespace StreamStats

inductive HistoryError where
  | zeroCapacity
  | widthMismatch (expected actual : Nat)
  deriving DecidableEq

namespace HistoryError

def message : HistoryError → String
  | zeroCapacity => "Window capacity must be at least 1"
  | widthMismatch expected actual =>
    s!"Sample dimension mismatch: expected {expected}, got {actual}"

end HistoryError

structure History (α : Type) where
  slots : Array (List α)
  /-- The slot that the next sample goes to. -/
  next : Nat
  /-- How many slots hold a sample. -/
  length : Nat
  width : Option Nat
  total : Nat

namespace History

variable {α : Type}

def capacity (h : History α) : Nat := h.slots.size

def ofCapacity (n : Nat) : Except HistoryError (History α) :=
  if n = 0 then .error .zeroCapacity
  else .ok ⟨Array.replicate n [], 0, 0, none, 0⟩

def isEmpty (h : History α) : Bool := h.length == 0

def isFull (h : History α) : Bool := h.length == h.capacity

def admits (h : History α) (width : Nat) : Except HistoryError Unit :=
  match h.width with
  | some expected => if expected = width then .ok () else .error (.widthMismatch expected width)
  | none => .ok ()

/-- The newest sample takes the slot of the oldest once every slot is in use. -/
def record (h : History α) (sample : List α) : Except HistoryError (History α) := do
  h.admits sample.length
  return {
    slots := h.slots.setIfInBounds h.next sample
    next := (h.next + 1) % h.capacity
    length := min (h.length + 1) h.capacity
    width := some sample.length
    total := h.total + 1 }

/-- The sample recorded `k` samples before the newest. There is none before the first one ever
recorded; behind the oldest one still held, the oldest stands in. -/
def back? (h : History α) (k : Nat) : Option (List α) :=
  if h.length = 0 ∨ h.total ≤ k then none
  else h.slots[(h.next + h.capacity - 1 - min k (h.length - 1)) % h.capacity]?

/-- The samples still held, the newest first. -/
def recent (h : History α) : List (List α) :=
  (List.range h.length).filterMap h.back?

def clear (h : History α) : History α :=
  ⟨Array.replicate h.capacity [], 0, 0, none, 0⟩

@[simp] theorem capacity_clear (h : History α) : h.clear.capacity = h.capacity := by
  simp [clear, capacity]

@[simp] theorem admits_eq_ok_iff {h : History α} {n : Nat} :
    h.admits n = .ok () ↔ h.width = none ∨ h.width = some n := by
  cases hw : h.width <;> simp [admits, hw]

end History

end StreamStats
