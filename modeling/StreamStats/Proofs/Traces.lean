import StreamStats.Proofs.Circuits
import StreamStats.Proofs.Streams

/-! What pins show over time. A cell settles on what the cells before it show in the same step; so a
delay cell shows what its source has shown, an accumulator the sum of it over all steps, and what
any other pin shows follows from pins that it depends on. -/

namespace StreamStats

variable {α : Type} [Scalar α]

theorem Levels.getElem?_read (levels : Levels α) {b : Bus} {i : Nat} {p : Pin}
    (hp : b[i]? = some p) :
    (levels.read b)[i]? = some (levels.readPin p) := by
  rw [read, List.getElem?_map, hp, Option.map_some]

theorem Cell.settle_congr {cell : Cell α} {levels levels' : Levels α}
    (h : ∀ b ∈ cell.sources, ∀ p ∈ b, levels.readPin p = levels'.readPin p) (sample : List α)
    (last : Array α) :
    cell.settle levels sample last = cell.settle levels' sample last := by
  have hread : ∀ b ∈ cell.sources, levels.read b = levels'.read b :=
    fun b hb => List.map_congr_left (h b hb)
  cases cell with
  | input _ | constant _ => rfl
  | delay source _ | accumulator source => simp only [settle, hread source (by simp [sources])]
  | binary op lhs rhs =>
    simp only [settle, hread lhs (by simp [sources]), hread rhs (by simp [sources])]

namespace Simulator

variable {sample : List α} {settled : Levels α} {cells : List (Cell α)} {lasts : List (Array α)}

@[simp] theorem getElem?_settleAll_of_lt {i : Nat} (hi : i < settled.size) :
    (settleAll sample settled cells lasts)[i]? = settled[i]? := by
  induction cells generalizing settled lasts with
  | nil => rfl
  | cons cell cells ih =>
    cases lasts with
    | nil => rfl
    | cons last lasts =>
      rw [settleAll, ih (by rw [Array.size_push]; omega), Array.getElem?_push_lt hi,
        Array.getElem?_eq_getElem hi]

theorem getElem?_settleAll {c : Circuit α} (hc : c.Sound)
    (hcells : ∀ (i : Nat) (cell : Cell α), cells[i]? = some cell →
      c.cells[settled.size + i]? = some cell) {i : Nat}
    {cell : Cell α} {last : Array α} (hcell : cells[i]? = some cell)
    (hlast : lasts[i]? = some last) :
    (settleAll sample settled cells lasts)[settled.size + i]? =
      some (cell.settle (settleAll sample settled cells lasts) sample last) := by
  induction cells generalizing settled lasts i with
  | nil => simp at hcell
  | cons first cells ih =>
    cases lasts with
    | nil => simp at hlast
    | cons firstLast lasts =>
      rw [settleAll]
      cases i with
      | zero =>
        cases hcell
        cases hlast
        rw [getElem?_settleAll_of_lt (by simp), Nat.add_zero, Array.getElem?_push_size]
        refine congrArg some (Cell.settle_congr (fun b hb p hp => ?_) _ _)
        have hlt : p.cell < settled.size := (hc.sources _ _ (hcells 0 cell rfl) b hb p hp).1
        rw [Levels.readPin, Levels.readPin,
          getElem?_settleAll_of_lt (by rw [Array.size_push]; omega), Array.getElem?_push_lt hlt,
          Array.getElem?_eq_getElem hlt]
      | succ i =>
        have hplace : settled.size + (i + 1) =
            (settled.push (first.settle settled sample firstLast)).size + i := by
          rw [Array.size_push]
          omega
        rw [hplace]
        refine ih (fun j cell' hj => ?_) hcell hlast
        rw [Array.size_push, Nat.add_right_comm, Nat.add_assoc]
        exact hcells (j + 1) cell' hj

end Simulator

namespace Circuit

/-- What all cells show after samples, the newest given first. -/
def levels (c : Circuit α) : List (List α) → Levels α
  | [] => (Simulator.ofCircuit c).levels
  | sample :: past => Simulator.settleAll sample #[] c.cells.toList (c.levels past).toList

def trace (c : Circuit α) (p : Pin) : List (List α) → List α
  | [] => []
  | sample :: past => (c.levels (sample :: past)).readPin p :: c.trace p past

/-- All of these samples are taken. -/
def Takes (c : Circuit α) (samples : List (List α)) : Prop :=
  ∀ s ∈ samples, Simulator.checkSample c s = .ok ()

variable {c : Circuit α} {sample : List α} {past : List (List α)} {id : Nat} {cell : Cell α}
    {p q : Pin} {f g : List α → α} {i : Nat}

/-- What a cell shows after one more sample. -/
theorem Sound.getElem?_levels (hc : c.Sound) (hfits : Simulator.Fits c (c.levels past))
    (sample : List α) (hcell : c.cells[id]? = some cell) :
    ∃ last, (c.levels past)[id]? = some last ∧ last.size = cell.size ∧
      (c.levels (sample :: past))[id]? =
        some (cell.settle (c.levels (sample :: past)) sample last) := by
  obtain ⟨last, hlast, hsize⟩ := hfits.exists_values hcell
  refine ⟨last, hlast, hsize, ?_⟩
  have hsettled : (c.levels (sample :: past))[(#[] : Levels α).size + id]? =
      some (cell.settle (c.levels (sample :: past)) sample last) :=
    Simulator.getElem?_settleAll hc (fun i cell hi => by simpa using hi) (by simpa using hcell)
    (by simpa using hlast)
  rwa [Array.size_empty, Nat.zero_add] at hsettled

theorem Sound.fits_levels (hc : c.Sound) (hs : c.Takes past) :
    Simulator.Fits c (c.levels past) := by
  induction past with
  | nil => exact Simulator.fits_ofCircuit c
  | cons sample past ih =>
    obtain ⟨hsample, hpast⟩ := List.forall_mem_cons.mp hs
    have hfits := ih hpast
    refine ⟨?_, fun id cell values hcell hvalues => ?_⟩
    · rw [levels, Simulator.size_settleAll (by simp [hfits.size_eq])]
      simp
    · obtain ⟨last, -, hsize, hsettled⟩ := hc.getElem?_levels hfits sample hcell
      rw [hsettled] at hvalues
      cases hvalues
      exact Cell.size_settle (hc.shape id cell hcell) _
        ((Simulator.checkSample_eq_ok_iff.mp hsample).2 cell
          (List.mem_of_getElem? (by simpa using hcell))) hsize

/-- In every step the one pin shows what `f` makes of all that the other has shown. -/
def Shows (c : Circuit α) (p q : Pin) (f : List α → α) : Prop :=
  ∀ sample past, c.Takes (sample :: past) →
  (c.levels (sample :: past)).readPin p = f (c.trace q (sample :: past))

@[simp] theorem shows_self (c : Circuit α) (p : Pin) : c.Shows p p (earlier · 0) := fun _ _ _ => rfl

theorem readPin_eq {levels : Levels α} {values : Array α} (hv : levels[id]? = some values)
    (i : Nat) :
    levels.readPin ⟨id, i⟩ = (values[i]?).getD 0 := by
  rw [Levels.readPin, hv, Option.bind_some]

theorem Sound.readPin_constant (hc : c.Sound) {values : List α}
    (hcell : c.cells[id]? = some (.constant values)) (hs : c.Takes past) (i : Nat) :
    (c.levels past).readPin ⟨id, i⟩ = earlier values i := by
  have hshown : (c.levels past)[id]? = some values.toArray := by
    induction past with
    | nil => simp [levels, Simulator.ofCircuit, hcell, Cell.initial]
    | cons sample past ih =>
      have hpast := (List.forall_mem_cons.mp hs).2
      obtain ⟨last, hlast, -, hsettled⟩ := hc.getElem?_levels (hc.fits_levels hpast) sample hcell
      rw [ih hpast] at hlast
      cases hlast
      exact hsettled
  rw [readPin_eq hshown]
  simp [earlier]

theorem Sound.shows_constant (hc : c.Sound) {values : List α}
    (hcell : c.cells[id]? = some (.constant values)) (i : Nat) (q : Pin) :
    c.Shows ⟨id, i⟩ q fun _ => earlier values i := fun _ _ hs => hc.readPin_constant hcell hs i

theorem Sound.readPin_input (hc : c.Sound) {size : Nat} (hcell : c.cells[id]? = some (.input size))
    (hs : c.Takes (sample :: past)) (i : Nat) :
    (c.levels (sample :: past)).readPin ⟨id, i⟩ = earlier sample i := by
  obtain ⟨last, -, -, hsettled⟩ :=
    hc.getElem?_levels (hc.fits_levels (List.forall_mem_cons.mp hs).2) sample hcell
  rw [readPin_eq hsettled]
  simp [Cell.settle, earlier]

theorem Sound.shows_binary (hc : c.Sound) {op : Arith} {lhs rhs : Bus} {l r : Pin}
    (hcell : c.cells[id]? = some (.binary op lhs rhs)) (hl : lhs[i]? = some l)
    (hr : rhs[i]? = some r) (hf : c.Shows l q f) (hg : c.Shows r q g) :
    c.Shows ⟨id, i⟩ q fun xs => op.apply (f xs) (g xs) := by
  intro sample past hs
  obtain ⟨last, -, -, hsettled⟩ :=
    hc.getElem?_levels (hc.fits_levels (List.forall_mem_cons.mp hs).2) sample hcell
  show _ = op.apply (f _) (g _)
  rw [readPin_eq hsettled, ← hf sample past hs, ← hg sample past hs]
  simp [Cell.settle, Levels.getElem?_read _ hl, Levels.getElem?_read _ hr, List.getElem?_zipWith]

theorem readPin_levels_nil (hcell : c.cells[id]? = some cell)
    (hstate : cell.initial = Array.replicate cell.size 0) (i : Nat) :
    (c.levels []).readPin ⟨id, i⟩ = 0 := by
  have hshown : (c.levels [])[id]? = some (Array.replicate cell.size 0) := by
    simp [levels, Simulator.ofCircuit, hcell, hstate]
  rw [readPin_eq hshown]
  cases h : (Array.replicate cell.size (0 : α))[i]? with
  | none => rfl
  | some v =>
    obtain ⟨hi, rfl⟩ := Array.getElem?_eq_some_iff.mp h
    simp

/-- A delay cell shows what its source has shown, step by step. -/
theorem Sound.readPin_delay (hc : c.Sound) {source : Bus} {window : Nat}
    (hcell : c.cells[id]? = some (.delay source window)) (hq : source[i]? = some q) {age : Nat}
    (hage : age < window) (hs : c.Takes past) :
    (c.levels past).readPin ⟨id, age * source.length + i⟩ = earlier (c.trace q past) age := by
  have hi : i < source.length := (List.getElem?_eq_some_iff.mp hq).1
  induction past generalizing age with
  | nil => rw [readPin_levels_nil hcell rfl, trace, earlier_nil]
  | cons sample past ih =>
    have hpast := (List.forall_mem_cons.mp hs).2
    obtain ⟨last, hlast, hsize, hsettled⟩ := hc.getElem?_levels (hc.fits_levels hpast) sample hcell
    rw [readPin_eq hsettled]
    -- the newest block is read from the source, all others have moved back by one
    cases age with
    | zero =>
      simp only [Cell.settle, Array.getElem?_append, List.size_toArray, Levels.length_read,
        Nat.zero_mul, Nat.zero_add, if_pos hi, List.getElem?_toArray, Levels.getElem?_read _ hq]
      rfl
    | succ age =>
      have hblock : source.length * (window - 1) ≤ last.size := by
        rw [hsize]
        exact Nat.mul_le_mul_left _ (Nat.sub_le _ _)
      have hlt : age * source.length + i < source.length * (window - 1) := by
        calc age * source.length + i < (age + 1) * source.length := by
              rw [Nat.add_mul, Nat.one_mul]; omega
          _ ≤ source.length * (window - 1) := by
            rw [Nat.mul_comm]; exact Nat.mul_le_mul_left _ (by omega)
      have hmoved : (age + 1) * source.length + i - source.length = age * source.length + i := by
        rw [Nat.add_mul]
        omega
      rw [trace, earlier_cons_succ, ← ih (by omega) hpast, readPin_eq hlast]
      simp only [Cell.settle, Array.getElem?_append, List.size_toArray, Levels.length_read,
        Array.getElem?_extract]
      rw [if_neg (by rw [Nat.add_mul]; omega), hmoved, if_pos (by omega), Nat.zero_add]

theorem Sound.shows_delay (hc : c.Sound) {source : Bus} {window : Nat}
    (hcell : c.cells[id]? = some (.delay source window)) (hq : source[i]? = some q) {age : Nat}
    (hage : age < window) :
    c.Shows ⟨id, age * source.length + i⟩ q (earlier · age) :=
  fun _ _ hs => hc.readPin_delay hcell hq hage hs

theorem Sound.readPin_accumulator (hc : c.Sound) {source : Bus}
    (hcell : c.cells[id]? = some (.accumulator source)) (hp : source[i]? = some p)
    (hf : c.Shows p q f) (hs : c.Takes past) :
    (c.levels past).readPin ⟨id, i⟩ = accumulate f (c.trace q past) := by
  have hi : i < source.length := (List.getElem?_eq_some_iff.mp hp).1
  induction past with
  | nil => rw [readPin_levels_nil hcell rfl, trace, accumulate]
  | cons sample past ih =>
    have hpast := (List.forall_mem_cons.mp hs).2
    obtain ⟨last, hlast, hsize, hsettled⟩ := hc.getElem?_levels (hc.fits_levels hpast) sample hcell
    have hlast_i : last[i]? = some (accumulate f (c.trace q past)) := by
      rw [← ih hpast, readPin_eq hlast, Array.getElem?_eq_getElem (by rw [hsize]; exact hi),
        Option.getD_some]
    have hnew : (c.trace q (sample :: past)) = (c.levels (sample :: past)).readPin q ::
        c.trace q past := rfl
    rw [readPin_eq hsettled, hnew, accumulate, ← hnew, ← hf sample past hs]
    simp only [Cell.settle, Array.getElem?_zipWith, hlast_i, List.getElem?_toArray,
      Levels.getElem?_read _ hp, Option.getD_some]

theorem Sound.shows_accumulator (hc : c.Sound) {source : Bus}
    (hcell : c.cells[id]? = some (.accumulator source)) (hp : source[i]? = some p)
    (hf : c.Shows p q f) : c.Shows ⟨id, i⟩ q (accumulate f) :=
  fun _ _ hs => hc.readPin_accumulator hcell hp hf hs

end Circuit
end StreamStats
