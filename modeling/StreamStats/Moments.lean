import StreamStats.History
import StreamStats.Scalar

/-! Mean and population variance of a window, component by component. Every one of the window's
places counts: a place that no sample has reached yet counts as a zero. -/

namespace StreamStats

/-- Combine position by position; what is longer on the left is kept as it is. -/
def zipKeep {β γ : Type} (f : β → γ → β) : List β → List γ → List β
  | b :: bs, c :: cs => f b c :: zipKeep f bs cs
  | bs, [] => bs
  | [], _ :: _ => []

@[simp] theorem length_zipKeep {β γ : Type} (f : β → γ → β) (bs : List β) (cs : List γ) :
    (zipKeep f bs cs).length = bs.length := by
  induction bs generalizing cs with
  | nil => cases cs <;> rfl
  | cons b bs ih => cases cs <;> simp [zipKeep, ih]

theorem zipKeep_eq_zipWith {β γ : Type} (f : β → γ → β) {bs : List β} {cs : List γ}
    (h : bs.length ≤ cs.length) : zipKeep f bs cs = List.zipWith f bs cs := by
  induction bs generalizing cs with
  | nil => cases cs <;> rfl
  | cons b bs ih =>
    cases cs with
    | nil => simp at h
    | cons c cs => simp [zipKeep, ih (by simpa using h)]

structure Moments (α : Type) where
  mean : List α
  variance : List α

namespace Moments

variable {α : Type} [Scalar α]

/-- The sum of the samples, each added to zeros in the order given. -/
def sum (dimension : Nat) (samples : List (List α)) : List α :=
  samples.foldl (zipKeep (· + ·)) (List.replicate dimension 0)

/-- The squared distances from `mean`, added to `start` in the order given. -/
def deviation (mean start : List α) (samples : List (List α)) : List α :=
  samples.foldl
    (fun acc sample => zipKeep (fun v (m, x) => v + (x - m) * (x - m)) acc (mean.zip sample)) start

/-- Two passes over the samples held; `absent` places lie at zero, the squared mean away from the
mean. -/
def ofHistory (h : History α) (window dimension : Nat) : Moments α :=
  if window = 0 ∨ dimension = 0 then ⟨[], []⟩
  else
    let n : α := Scalar.ofNat window
    let absent : α := Scalar.ofNat (window - h.length)
    let mean := (sum dimension h.recent).map (· / n)
    let variance := (deviation mean (mean.map fun m => absent * m * m) h.recent).map (· / n)
    ⟨mean, variance⟩

end Moments

end StreamStats
