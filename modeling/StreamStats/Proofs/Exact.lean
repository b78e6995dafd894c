import Mathlib.Algebra.BigOperators.Group.List.Basic
import Mathlib.Algebra.Order.Field.Rat
import Mathlib.Tactic.FieldSimp
import Mathlib.Tactic.Ring
import StreamStats.Proofs.Agreement

/-! Statistics in exact arithmetic. Over the rationals, sums do not depend on the order of their
terms and what enters a running sum leaves it again; so all forms of a statistic come to the mean
and the variance of a window that is filled up with zeros. -/

namespace StreamStats

instance : Scalar ℚ where
  ofNat n := n
  same x y := x == y
  isNegZero x := x == 0
  isPosZero x := x == 0

@[simp] theorem scalar_ofNat_rat (n : Nat) : (Scalar.ofNat n : ℚ) = n := rfl

def average (xs : List ℚ) : ℚ := xs.sum / xs.length

/-- The mean squared distance of numbers from their mean. -/
def populationVariance (xs : List ℚ) : ℚ := (xs.map fun x => (x - average xs) ^ 2).sum / xs.length

theorem foldl_add_eq {g : ℚ → ℚ} (xs : List ℚ) (b : ℚ) :
    xs.foldl (fun v x => v + g x) b = b + (xs.map g).sum := by
  induction xs generalizing b with
  | nil => simp
  | cons x xs ih => rw [List.foldl_cons, ih, List.map_cons, List.sum_cons, add_assoc]

@[simp] theorem addUp_eq_sum (xs : List ℚ) : addUp xs = xs.sum := by
  cases xs with
  | nil => rfl
  | cons x xs => simpa [addUp] using foldl_add_eq (g := id) xs x

theorem populationVariance_eq (xs : List ℚ) (hxs : xs ≠ []) :
    populationVariance xs = ((xs.map fun x => x * x).sum - xs.sum * xs.sum / xs.length) /
      xs.length := by
  have hlen : (xs.length : ℚ) ≠ 0 := by simpa using hxs
  have hexpand : ∀ (m : ℚ) (ys : List ℚ), (ys.map fun x => (x - m) ^ 2).sum =
      (ys.map fun x => x * x).sum - 2 * m * ys.sum + ys.length * (m * m) := by
    intro m ys
    induction ys with
    | nil => simp
    | cons y ys ih =>
      simp only [List.map_cons, List.sum_cons, List.length_cons, Nat.cast_add, Nat.cast_one, ih]
      ring
  rw [populationVariance, hexpand, average]
  field_simp
  ring

namespace Feature

theorem fit_eq_append (size : Nat) (xs : List ℚ) :
    fit size xs = xs.take size ++ List.replicate (size - xs.length) 0 := by
  rw [fit, List.take_append, List.take_replicate, Nat.min_self]

@[simp] theorem sum_map_fit (g : ℚ → ℚ) (size : Nat) (xs : List ℚ) :
    ((fit size xs).map g).sum = ((xs.take size).map g).sum + (size - xs.length : Nat) * g 0 := by
  simp [fit_eq_append]

/-- What has entered a window and has not left it is what it holds. -/
theorem accumulate_eq_sum {g : ℚ → ℚ} (hg : g 0 = 0) (size : Nat) (xs : List ℚ) :
    accumulate (fun xs => g (earlier xs 0) - g (earlier xs size)) xs =
      ((fit size xs).map g).sum := by
  induction xs with
  | nil => simp [accumulate, hg]
  | cons x xs ih =>
    rw [accumulate, ih]
    cases size with
    | zero => simp [fit]
    | succ n =>
      -- the number that leaves is the last one of the window of before
      have hlast : fit (n + 1) xs = fit n xs ++ [earlier xs n] := by simp [fit_eq, List.range_succ]
      have hfirst : fit (n + 1) (x :: xs) = x :: fit n xs := by
        simp [fit_eq, List.range_succ_eq_map]
      rw [hlast, hfirst]
      simp only [List.map_append, List.map_cons, List.map_nil, List.sum_append, List.sum_cons,
        List.sum_nil, earlier_cons_zero, earlier_cons_succ]
      ring

@[simp] theorem accumulate_change_eq (size : Nat) (xs : List ℚ) :
    accumulate (change size) xs = (fit size xs).sum :=
  (accumulate_eq_sum (g := fun x => x) rfl size xs).trans (by rw [List.map_id'])

@[simp] theorem accumulate_changeSquares_eq (size : Nat) (xs : List ℚ) :
    accumulate (changeSquares size) xs = ((fit size xs).map fun x => x * x).sum :=
  accumulate_eq_sum (g := fun x => x * x) (mul_zero 0) size xs

@[simp] theorem windowMean_eq (size : Nat) (xs : List ℚ) :
    windowMean size xs = average (fit size xs) := by
  have hsum : (fit size xs).sum = (xs.take size).sum := by
    simpa using sum_map_fit (fun x => x) size xs
  have hfold : (xs.take size).foldl (· + ·) 0 = (xs.take size).sum := by
    simpa using foldl_add_eq (g := fun x => x) (xs.take size) 0
  rw [average, hsum, length_fit, ← hfold]
  rfl

namespace Statistic

def exact : Statistic → List ℚ → ℚ
  | mean | incrementalMean => average
  | variance | incrementalVariance => populationVariance

/-- A feature returns the statistic of its window, zeros standing in for the numbers that are not
there. -/
theorem value_eq_exact {size : Nat} (hsize : 0 < size) (xs : List ℚ) (statistic : Statistic) :
    statistic.value size xs = statistic.exact (fit size xs) := by
  have hne : fit size xs ≠ [] := List.ne_nil_of_length_pos (by rwa [length_fit])
  cases statistic with
  | mean => exact windowMean_eq size xs
  | incrementalMean =>
    rw [value, accumulate_change_eq, Statistic.exact, average, length_fit]
    rfl
  | variance =>
    rw [value, windowMean_eq, foldl_add_eq, Statistic.exact, populationVariance, sum_map_fit,
      length_fit]
    simp only [scalar_ofNat_rat]
    ring_nf
  | incrementalVariance =>
    rw [value, accumulate_change_eq, accumulate_changeSquares_eq, Statistic.exact,
      populationVariance_eq _ hne, length_fit]
    rfl

/-- So does its circuit. -/
theorem wired_eq_exact {size : Nat} (hsize : 0 < size) (xs : List ℚ) (statistic : Statistic) :
    statistic.wired size xs = statistic.exact (fit size xs) := by
  cases statistic with
  | mean =>
    rw [wired, addUp_eq_sum, Statistic.exact, average, length_fit]
    rfl
  | variance =>
    simp only [wired, addUp_eq_sum, Statistic.exact, populationVariance, average, length_fit,
      scalar_ofNat_rat, sq]
  | incrementalMean => exact value_eq_exact hsize xs .incrementalMean
  | incrementalVariance => exact value_eq_exact hsize xs .incrementalVariance

theorem agrees_exact (statistic : Statistic) : statistic.Agrees ℚ := fun _ xs hsize =>
  (value_eq_exact hsize xs statistic).trans (wired_eq_exact hsize xs statistic).symm

end Statistic
end Feature

namespace Registry

/-- In exact arithmetic the values of all features, however they are chained, are those that their
circuit shows. -/
theorem Built.matches_exact {r : Registry ℚ} (hr : r.Built) (hne : r.entries ≠ #[]) {width : Nat}
    (hwidth : 0 < width) (hdimensions : r.TakesWidth width) : r.Matches width :=
  hr.agrees hne hwidth hdimensions fun _ _ statistic _ => statistic.agrees_exact

theorem chained_matches : (chained : Registry ℚ).Matches 2 :=
  built_chained.matches_exact (by simp [chained]) (by decide)
  (by simp [TakesWidth, features, chained, Feature.ofInput])

end Registry
end StreamStats
