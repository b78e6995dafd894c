import StreamStats.Feature
import StreamStats.Proofs.Outcome
import StreamStats.Proofs.Rings

/-! What windowed features make of a stream. Components do not mix, so all is said of one component:
a list of the numbers it has been, the newest first. -/

namespace StreamStats

section Components

variable {α : Type} [Scalar α]

/-- The number of so many steps earlier than the newest, zero before the first. -/
def earlier (xs : List α) (age : Nat) : α := xs.getD age 0

@[simp] theorem earlier_nil (age : Nat) : earlier ([] : List α) age = 0 := by simp [earlier]

@[simp] theorem earlier_cons_zero (x : α) (xs : List α) : earlier (x :: xs) 0 = x := rfl

@[simp] theorem earlier_cons_succ (x : α) (xs : List α) (age : Nat) :
    earlier (x :: xs) (age + 1) = earlier xs age := rfl

theorem getElem?_eq_earlier {xs : List α} {i : Nat} (hi : i < xs.length) :
    xs[i]? = some (earlier xs i) := by
  simp [earlier, List.getElem?_eq_getElem hi]

/-- The sum over all steps of what `f` makes of the numbers up to each. -/
def accumulate (f : List α → α) : List α → α
  | [] => 0
  | x :: xs => accumulate f xs + f (x :: xs)

def widthOf {α : Type} (samples : List (List α)) : Nat := (samples.headD []).length

def column (i : Nat) (samples : List (List α)) : List α := samples.map (earlier · i)

/-- A value with as many components as the newest sample. -/
def columns (f : List α → α) (samples : List (List α)) : List α :=
  (List.range (widthOf samples)).map fun i => f (column i samples)

@[simp] theorem length_column (i : Nat) (samples : List (List α)) :
    (column i samples).length = samples.length := by
  simp [column]

@[simp] theorem column_cons (i : Nat) (sample : List α) (samples : List (List α)) :
    column i (sample :: samples) = earlier sample i :: column i samples := rfl

@[simp] theorem column_take (i n : Nat) (samples : List (List α)) :
    column i (samples.take n) = (column i samples).take n := by
  simp [column, List.map_take]

theorem foldl_column {β : Type} (f : β → α → β) (b : β) (i : Nat) (samples : List (List α)) :
    (column i samples).foldl f b = samples.foldl (fun b s => f b (earlier s i)) b := List.foldl_map

@[simp] theorem earlier_column (i age : Nat) (samples : List (List α)) :
    earlier (column i samples) age = earlier (samples.getD age []) i := by
  simp only [earlier, column, List.getD_eq_getElem?_getD, List.getElem?_map]
  cases samples[age]? <;> simp

@[simp] theorem length_columns (f : List α → α) (samples : List (List α)) :
    (columns f samples).length = widthOf samples := by simp [columns]

@[simp] theorem earlier_columns {f : List α → α} {samples : List (List α)} {i : Nat}
    (hi : i < widthOf samples) :
    earlier (columns f samples) i = f (column i samples) := by
  simp [columns, hi, earlier]

theorem eq_columns {f : List α → α} {samples : List (List α)} {values : List α}
    (hlen : values.length = widthOf samples)
    (h : ∀ i < widthOf samples, values[i]? = some (f (column i samples))) :
    values = columns f samples := by
  refine List.ext_getElem? fun i => ?_
  rcases Nat.lt_or_ge i (widthOf samples) with hi | hi
  · rw [h i hi, columns, List.getElem?_map, List.getElem?_range hi]
    rfl
  · rw [List.getElem?_eq_none (hlen ▸ hi), List.getElem?_eq_none (by simpa using hi)]

theorem Feature.fit_eq (width : Nat) (xs : List α) :
    fit width xs = (List.range width).map (earlier xs) := by
  refine List.ext_getElem? fun i => ?_
  simp only [fit, List.getElem?_take, List.getElem?_append, List.getElem?_replicate,
    List.getElem?_map]
  rcases Nat.lt_or_ge i width with hi | hi
  · rw [if_pos hi, List.getElem?_range hi]
    rcases Nat.lt_or_ge i xs.length with hx | hx
    · rw [if_pos hx]
      exact getElem?_eq_earlier hx
    · rw [if_neg (by omega), if_pos (by omega)]
      simp [earlier, List.getElem?_eq_none hx]
  · rw [if_neg (by omega), List.getElem?_eq_none (by simpa using hi)]
    rfl

theorem Feature.getElem?_fit {width i : Nat} (hi : i < width) (xs : List α) :
    (fit width xs)[i]? = some (earlier xs i) := by
  simp [Feature.fit_eq, hi]

end Components

theorem getElem?_zipKeep {β γ : Type} {f : β → γ → β} {bs : List β} {cs : List γ} {i : Nat} {b : β}
    {c : γ} (hb : bs[i]? = some b) (hc : cs[i]? = some c) :
    (zipKeep f bs cs)[i]? = some (f b c) := by
  induction bs generalizing cs i with
  | nil => simp at hb
  | cons b' bs ih =>
    cases cs with
    | nil => simp at hc
    | cons c' cs =>
      cases i with
      | zero => simp_all [zipKeep]
      | succ i =>
        simp only [zipKeep, List.getElem?_cons_succ] at hb hc ⊢
        exact ih hb hc

theorem getElem?_foldl_zipKeep {β γ δ : Type} {f : β → γ → β} {row : δ → List γ} {cell : δ → γ}
    {i : Nat} {items : List δ} (hrow : ∀ d ∈ items, (row d)[i]? = some (cell d)) {start : List β}
    {b : β} (hb : start[i]? = some b) :
    (items.foldl (fun acc d => zipKeep f acc (row d)) start)[i]? =
      some (items.foldl (fun b d => f b (cell d)) b) := by
  induction items generalizing start b with
  | nil => exact hb
  | cons d items ih =>
    obtain ⟨hd, hitems⟩ := List.forall_mem_cons.mp hrow
    exact ih hitems (getElem?_zipKeep hb hd)

@[simp] theorem length_foldl_zipKeep {β γ δ : Type} {f : β → γ → β} {row : δ → List γ}
    (items : List δ) (start : List β) :
    (items.foldl (fun acc d => zipKeep f acc (row d)) start).length = start.length := by
  induction items generalizing start with
  | nil => rfl
  | cons d items ih => rw [List.foldl_cons, ih, length_zipKeep]

variable {α : Type} [Scalar α]

namespace Feature

/-- What enters the sum over a window of so many places less what leaves it. -/
def change (size : Nat) (xs : List α) : α := earlier xs 0 - earlier xs size

def changeSquares (size : Nat) (xs : List α) : α :=
  earlier xs 0 * earlier xs 0 - earlier xs size * earlier xs size

def windowMean (size : Nat) (xs : List α) : α := (xs.take size).foldl (· + ·) 0 / Scalar.ofNat size

namespace Statistic

def value (size : Nat) (xs : List α) : Statistic → α
  | mean => windowMean size xs
  | incrementalMean => accumulate (change size) xs / Scalar.ofNat size
  | variance =>
    let m := windowMean size xs
    (xs.take size).foldl (fun v x => v + (x - m) * (x - m))
      (Scalar.ofNat (size - xs.length) * m * m) / Scalar.ofNat size
  | incrementalVariance =>
    let sum := accumulate (change size) xs
    (accumulate (changeSquares size) xs - sum * sum / Scalar.ofNat size) / Scalar.ofNat size

end Statistic

end Feature

namespace Moments

variable {samples : List (List α)} {size : Nat}

theorem mean_eq (hwidths : ∀ s ∈ samples, s.length = widthOf samples) :
    (sum (widthOf samples) (samples.take size)).map (· / Scalar.ofNat size) =
      columns (Feature.windowMean size) samples := by
  have hlen : (sum (widthOf samples) (samples.take size)).length = widthOf samples := by
    exact (length_foldl_zipKeep _ _).trans (by simp)
  refine eq_columns (by rw [List.length_map, hlen]) fun i hi => ?_
  have hearlier : ∀ s ∈ samples.take size, s[i]? = some (earlier s i) := fun s hs =>
    getElem?_eq_earlier (hwidths s (List.mem_of_mem_take hs) ▸ hi)
  have hsum : (sum (widthOf samples) (samples.take size))[i]? =
      some ((samples.take size).foldl (fun v s => v + earlier s i) 0) :=
    getElem?_foldl_zipKeep hearlier (by simp [hi])
  rw [List.getElem?_map, hsum, Feature.windowMean, ← column_take, foldl_column]
  rfl

theorem deviation_eq (hwidths : ∀ s ∈ samples, s.length = widthOf samples) {mean : List α → α}
    {start : α → α} {i : Nat} (hi : i < widthOf samples) :
    (deviation (columns mean samples) ((columns mean samples).map start) (samples.take size))[i]? =
      some (((column i samples).take size).foldl
        (fun v x => v + (x - mean (column i samples)) * (x - mean (column i samples)))
        (start (mean (column i samples)))) := by
  have hmean : (columns mean samples)[i]? = some (mean (column i samples)) := by simp [columns, hi]
  have hrow : ∀ s ∈ samples.take size, ((columns mean samples).zip s)[i]? =
      some (mean (column i samples), earlier s i) := fun s hs => List.getElem?_zip_eq_some.mpr
      ⟨hmean, getElem?_eq_earlier (hwidths s (List.mem_of_mem_take hs) ▸ hi)⟩
  rw [← column_take, foldl_column]
  exact getElem?_foldl_zipKeep hrow (by rw [List.getElem?_map, hmean, Option.map_some])

theorem ofHistory_eq {h : History α} (hh : h.Holds samples) (hcapacity : h.capacity = size)
    (hwidths : ∀ s ∈ samples, s.length = widthOf samples) (hpos : 0 < widthOf samples) :
    ofHistory h size (widthOf samples) =
      ⟨columns (Feature.Statistic.mean.value size) samples,
        columns (Feature.Statistic.variance.value size) samples⟩ := by
  have hsize : 0 < size := hcapacity ▸ Nat.zero_lt_of_lt hh.next_lt
  have hrecent : h.recent = samples.take size := hcapacity ▸ hh.recent_eq
  have habsent : size - h.length = size - samples.length := by
    rw [hh.length_eq, hcapacity]
    omega
  simp only [ofHistory, if_neg (not_or.mpr ⟨Nat.ne_of_gt hsize, Nat.ne_of_gt hpos⟩), hrecent,
    mean_eq hwidths, habsent]
  refine congrArg _ (eq_columns (by simp [deviation]) fun i hi => ?_)
  rw [List.getElem?_map, deviation_eq hwidths hi, Option.map_some, Feature.Statistic.value,
    length_column]

end Moments

namespace Feature

def refusal? (id : String) (past : List (List α)) (sample : List α) : Option FeatureError :=
  if sample = [] then some (.emptySample id)
  else if past ≠ [] ∧ widthOf past ≠ sample.length then some
    (.history (.widthMismatch (widthOf past) sample.length)) else none

omit [Scalar α] in
@[simp] theorem refusal?_eq_none_iff {id : String} {past : List (List α)} {sample : List α} :
    refusal? id past sample = none ↔ sample ≠ [] ∧ (past ≠ [] → widthOf past = sample.length) := by
  simp only [refusal?]
  split
  · simp_all
  · split <;> simp_all

omit [Scalar α] in
theorem refusal?_eq_none_of_widths {id : String} {width : Nat} {past : List (List α)}
    {sample : List α} (hwidth : 0 < width) (hpast : ∀ s ∈ past, s.length = width)
    (hsample : sample.length = width) : refusal? id past sample = none := by
  refine refusal?_eq_none_iff.mpr ⟨List.ne_nil_of_length_pos (hsample ▸ hwidth), fun hne => ?_⟩
  obtain ⟨last, past, rfl⟩ := List.exists_cons_of_ne_nil hne
  exact (hpast last List.mem_cons_self).trans hsample.symm

namespace Window

/-- The window has so many places and has been given these samples since it was last cleared, the
newest first. -/
structure Holds (w : Window α) (source size : Nat) (past : List (List α)) : Prop where
  source_eq : w.source = source
  size_eq : w.size = size
  capacity_eq : w.history.capacity = size
  history : w.history.Holds past

variable {w : Window α} {source size : Nat} {past : List (List α)} {id : String} {sample : List α}

omit [Scalar α] in
theorem Holds.size_pos (hw : w.Holds source size past) : 0 < size :=
  hw.capacity_eq ▸ Nat.zero_lt_of_lt hw.history.next_lt

omit [Scalar α] in
theorem Holds.widths (hw : w.Holds source size past) : ∀ s ∈ past, s.length = widthOf past := by
  intro s hs
  have hwidth := hw.history.widths s hs
  rw [hw.history.width_eq] at hwidth
  cases past with
  | nil => cases hs
  | cons last past => exact (Option.some.inj hwidth).symm

omit [Scalar α] in
theorem Holds.record_of_refusal (hw : w.Holds source size past) {e : FeatureError}
    (he : refusal? id past sample = some e) :
    w.record id sample = .error e := by
  unfold refusal? at he
  split at he
  · cases he
    simp only [Window.record, if_pos ‹sample = []›]
  · split at he
    · rename_i hne hmismatch
      cases he
      cases past with
      | nil => exact absurd rfl hmismatch.1
      | cons last past =>
        simp only [Window.record, if_neg hne, hw.history.record_of_ne hmismatch.2, widthOf,
          List.headD_cons]
    · cases he

omit [Scalar α] in
theorem Holds.admits (hw : w.Holds source size past) (hs : refusal? id past sample = none) :
    w.history.admits sample.length = .ok () := hw.history.admits_iff.mpr fun s hs' => by
  obtain ⟨-, hmatch⟩ := refusal?_eq_none_iff.mp hs
  cases past with
  | nil => cases hs'
  | cons last past =>
    cases hs'
    exact hmatch (List.cons_ne_nil _ _)

omit [Scalar α] in
theorem Holds.record (hw : w.Holds source size past) (hs : refusal? id past sample = none) :
    ∃ w', w.record id sample = .ok w' ∧ w'.Holds source size (sample :: past) := by
  have hne := (refusal?_eq_none_iff.mp hs).1
  obtain ⟨h', hrecord, hcapacity, hholds⟩ := hw.history.record (hw.admits hs)
  refine ⟨{ w with history := h' }, ?_, hw.source_eq, hw.size_eq, hcapacity.trans hw.capacity_eq,
    hholds⟩
  simp only [Window.record, if_neg hne, hrecord]

/-- The sample that leaves is as old as the window is long, zeros where there is none. -/
theorem Holds.getElem?_departing (hw : w.Holds source size past) {i width : Nat} (hi : i < width) :
    (w.departing width)[i]? = some (earlier (column i (sample :: past)) size) := by
  obtain ⟨n, rfl⟩ := Nat.exists_eq_add_one_of_ne_zero (Nat.ne_of_gt hw.size_pos)
  have hback : w.history.back? (w.size - 1) = past[n]? := by
    rw [hw.size_eq]
    exact hw.history.back?_eq (by rw [hw.capacity_eq]; exact Nat.lt_succ_self n)
  rw [departing, getElem?_fit hi, hback, column_cons, earlier_cons_succ, earlier_column,
    List.getD_eq_getElem?_getD]

end Window

namespace Stage

def after (w : Window α) (past : List (List α)) : Statistic → Stage α
  | .mean => mean w
  | .incrementalMean => incrementalMean w (columns (accumulate (change w.size)) past)
  | .variance => variance w
  | .incrementalVariance => incrementalVariance w (columns (accumulate (change w.size)) past)
      (columns (accumulate (changeSquares w.size)) past)

/-- The stage has seen these samples since it was last reset, the newest first. -/
def Holds (stage : Stage α) (statistic : Statistic) (source size : Nat) (past : List (List α)) :
    Prop := ∃ w : Window α, w.Holds source size past ∧ stage = after w past statistic

variable {stage : Stage α} {statistic : Statistic} {source size : Nat} {past : List (List α)}
    {id : String} {sample : List α}

theorem Holds.size_pos (h : stage.Holds statistic source size past) : 0 < size := by
  obtain ⟨w, hw, -⟩ := h
  exact hw.size_pos

theorem Holds.source_eq (h : stage.Holds statistic source size past) :
    stage.window?.map Window.source = some source := by
  obtain ⟨w, hw, rfl⟩ := h
  rw [← hw.source_eq]
  cases statistic <;> rfl

theorem holds_ofWindow {w : Window α} (hw : w.Holds source size []) (statistic : Statistic) :
    (ofWindow w statistic).Holds statistic source size [] := by
  refine ⟨w, hw, ?_⟩
  cases statistic <;> rfl

theorem Holds.reset (h : stage.Holds statistic source size past) :
    stage.reset.Holds statistic source size [] := by
  obtain ⟨w, hw, rfl⟩ := h
  refine ⟨w.clear, ⟨hw.source_eq, hw.size_eq,
    by simpa [Window.clear] using hw.capacity_eq, hw.history.clear⟩, ?_⟩
  cases statistic <;> rfl

theorem Holds.feed_of_refusal (h : stage.Holds statistic source size past) {e : FeatureError}
    (he : refusal? id past sample = some e) : stage.feed id sample = .error e := by
  obtain ⟨w, hw, rfl⟩ := h
  cases statistic <;> simp only [after, feed, hw.record_of_refusal he] <;> rfl

/-- Sums kept from before, with the changes that a sample makes. -/
theorem add_changes (hs : refusal? id past sample = none) {f : List α → α} {changes : List α}
    (hlen : changes.length = sample.length)
    (h : ∀ i < sample.length, changes[i]? = some (f (column i (sample :: past)))) :
    List.zipWith (· + ·) (fit sample.length (columns (accumulate f) past)) changes =
      columns (accumulate f) (sample :: past) := by
  refine eq_columns (by simp [hlen, widthOf]) fun i (hi : i < sample.length) => ?_
  have hsum : earlier (columns (accumulate f) past) i = accumulate f (column i past) := by
    cases past with
    | nil => simp [columns, widthOf, column, accumulate]
    | cons last past =>
      exact earlier_columns ((refusal?_eq_none_iff.mp hs).2 (List.cons_ne_nil _ _) ▸ hi)
  rw [List.getElem?_zipWith, getElem?_fit hi, h i hi, hsum]
  rfl

/-- A sample that is taken adds to what the stage has seen, and the value is that of its
statistic. -/
theorem Holds.feed (h : stage.Holds statistic source size past)
    (hs : refusal? id past sample = none) :
    ∃ stage', stage.feed id sample = .ok (columns (statistic.value size) (sample :: past), stage') ∧
      stage'.Holds statistic source size (sample :: past) := by
  obtain ⟨w, hw, rfl⟩ := h
  have hne := (refusal?_eq_none_iff.mp hs).1
  obtain ⟨w', hrecord, hw'⟩ := hw.record hs
  refine ⟨after w' (sample :: past) statistic, ?_, w', hw', rfl⟩
  have hmoments : Moments.ofHistory w'.history w'.size sample.length = _ :=
    hw'.size_eq ▸ Moments.ofHistory_eq hw'.history hw'.capacity_eq hw'.widths
    (List.length_pos_iff.mpr hne)
  have hold : ∀ i < sample.length, (w.departing sample.length)[i]? =
      some (earlier (column i (sample :: past)) size) := fun i hi => hw.getElem?_departing hi
  have hnew : ∀ i < sample.length, sample[i]? = some (earlier (column i (sample :: past)) 0) :=
    fun i hi =>
    getElem?_eq_earlier hi
  have hlen : (w.departing sample.length).length = sample.length := by simp [Window.departing]
  have hsum : List.zipWith (· + ·) (fit sample.length (columns (accumulate (change size)) past))
      (List.zipWith (· - ·) sample (w.departing sample.length)) =
        columns (accumulate (change size)) (sample :: past) :=
    add_changes hs (by simp [hlen]) fun i hi => by
      rw [List.getElem?_zipWith, hnew i hi, hold i hi]
      rfl
  have hsquares : List.zipWith (· + ·)
    (fit sample.length (columns (accumulate (changeSquares size)) past))
      (List.zipWith (fun new old => new * new - old * old) sample (w.departing sample.length)) =
        columns (accumulate (changeSquares size)) (sample :: past) :=
    add_changes hs (by simp [hlen]) fun i hi => by
      rw [List.getElem?_zipWith, hnew i hi, hold i hi]
      rfl
  cases statistic with
  | mean =>
    simp only [after, Stage.feed, hrecord]
    show Except.ok ((Moments.ofHistory _ _ _).mean, mean w') = _
    rw [hmoments, hw'.size_eq]
  | variance =>
    simp only [after, Stage.feed, hrecord]
    show Except.ok ((Moments.ofHistory _ _ _).variance, variance w') = _
    rw [hmoments, hw'.size_eq]
  | incrementalMean =>
    simp only [after, Stage.feed, hrecord]
    show Except.ok (List.map _ (List.zipWith _ _ _), incrementalMean w' (List.zipWith _ _ _)) = _
    rw [hw.size_eq, hw'.size_eq, hsum]
    simp [columns, Statistic.value]
  | incrementalVariance =>
    simp only [after, Stage.feed, hrecord]
    show Except.ok (List.zipWith _ (List.zipWith _ _ _) (List.zipWith _ _ _),
      incrementalVariance w' (List.zipWith _ _ _) (List.zipWith _ _ _)) = _
    rw [hw.size_eq, hw'.size_eq, hsum, hsquares]
    simp [columns, Statistic.value, List.zipWith_map, List.zipWith_self]

end Stage

omit [Scalar α] in
theorem exists_ofWindow (id : String) (statistic : Statistic) (source : Nat) {size : Nat}
    (hsize : 0 < size) :
    ∃ w : Window α, ofWindow id statistic source size = .ok ⟨id, .ofWindow w statistic⟩ ∧
    w.Holds source size [] := by
  obtain ⟨history, hhistory, hcapacity, hholds⟩ := History.holds_ofCapacity (α := α) hsize
  have hwindow : Window.ofSize source size = .ok ⟨source, size, history⟩ := by
    rw [Window.ofSize, hhistory]
    rfl
  exact ⟨_, by rw [ofWindow, hwindow], rfl, rfl, hcapacity, hholds⟩

end Feature
end StreamStats
