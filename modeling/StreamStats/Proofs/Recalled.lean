import StreamStats.Proofs.Exact
import StreamStats.Proofs.InPlace
import StreamStats.Proofs.Wiring

/-! What delay cells and accumulators keep of a run. A simulator is written to in place and refuses
some of what it is asked; its states right after the samples that it took are set beside what the
cells show in the end. -/

namespace StreamStats

open InPlace

variable {α : Type}

namespace Circuit

/-- The buses that were returned are those of the cells, in the order of the cells. -/
structure Handed (p : List Bus × Circuit α) : Prop where
  length_eq : p.1.length = p.2.cells.size
  getElem?_reverse : ∀ id : Nat, p.1.reverse[id]? = p.2.cells[id]?.map fun cell =>
    Bus.range id 0 cell.size

theorem Handed.place {p : List Bus × Circuit α} (hp : Handed p) {cell : Cell α} {bus : Bus}
    {c : Circuit α} (h : p.2.place cell = .ok (bus, c)) : Handed (bus :: p.1, c) := by
  obtain ⟨-, -, rfl, hcells⟩ := place_eq_ok_iff.mp h
  refine ⟨by simp [hcells, hp.length_eq], fun id => ?_⟩
  have hlength : p.1.reverse.length = p.2.cells.size := by rw [List.length_reverse, hp.length_eq]
  simp only [List.reverse_cons, hcells, Array.getElem?_push]
  by_cases hid : id = p.2.cells.size
  · subst hid
    rw [if_pos rfl, ← hlength, List.getElem?_concat_length, hlength]
    rfl
  · rw [if_neg hid, ← hp.getElem?_reverse, List.getElem?_append]
    split
    · rfl
    · rename_i hlt
      rw [hlength] at hlt ⊢
      rw [List.getElem?_eq_none (by simp; omega), List.getElem?_eq_none (by omega)]

@[simp] theorem handed_attempted (cells : List (Cell α)) : Handed (attempted cells) :=
  foldl_follow (g := fun cell c => c.place cell) (fun cell p _ => placeInPlace_does p.2 cell)
    (fun _ _ _ _ hp h => hp.place h) cells ⟨rfl, by simp [empty]⟩

end Circuit

variable [Scalar α]

namespace Simulator

def read? (s : Simulator α) (b : Bus) : Option (List α) := s.levels.read? b

def readPin? (s : Simulator α) (p : Pin) : Option α := s.levels.readPin? p

def watchInPlace (request : Request α) : InPlace (Simulator α) (Simulator α) := do
  let _ ← serveInPlace request
  get

/-- The states of a new simulator right after each sample that it took, the newest first, and its
state after all requests. -/
def watched (c : Circuit α) (requests : List (Request α)) : List (Simulator α) × Simulator α :=
  (requests.map watchInPlace).foldl follow ([], ofCircuit c)

/-- These are the states right after each of the samples. -/
inductive Passes (c : Circuit α) : List (Simulator α) → List (List α) → Prop where
  | start : Passes c [] []
  | step {moments : List (Simulator α)} {past : List (List α)} {s : Simulator α} {sample : List α} :
      Passes c moments past → checkSample c sample = .ok () → s.levels = c.levels (sample :: past) →
      Passes c (s :: moments) (sample :: past)

namespace Passes

variable {c : Circuit α} {moments : List (Simulator α)} {past : List (List α)}

theorem takes (h : Passes c moments past) : c.Takes past := by
  induction h with
  | start => simp [Circuit.Takes]
  | step _ hsample _ ih => exact List.forall_mem_cons.mpr ⟨hsample, ih⟩

theorem length_eq (h : Passes c moments past) : moments.length = past.length := by
  induction h with
  | start => rfl
  | step _ _ _ ih => rw [List.length_cons, List.length_cons, ih]

theorem trace_eq (h : Passes c moments past) (p : Pin) :
    c.trace p past = moments.map (·.levels.readPin p) := by
  induction h with
  | start => rfl
  | step _ _ hlevels ih => rw [Circuit.trace, List.map_cons, hlevels, ih]

theorem fits (h : Passes c moments past) (hc : c.Sound) : ∀ s ∈ moments, Fits c s.levels := by
  induction h with
  | start => simp
  | step hpast hsample hlevels ih =>
    refine List.forall_mem_cons.mpr ⟨?_, ih⟩
    rw [hlevels]
    exact hc.fits_levels (List.forall_mem_cons.mpr ⟨hsample, hpast.takes⟩)

end Passes

/-- The simulator has come through these moments by taking some samples. -/
def Watched (c : Circuit α) (p : List (Simulator α) × Simulator α) : Prop :=
  ∃ past, Passes c p.1 past ∧ p.2.circuit = c ∧ p.2.levels = c.levels past ∧ p.2.steps = past.length

variable {c : Circuit α} {s s' : Simulator α}

theorem Watched.runs {p : List (Simulator α) × Simulator α} (hp : Watched c p) (hc : c.Sound) :
    p.2.Runs c := by
  obtain ⟨past, hpast, hcircuit, hlevels, -⟩ := hp
  exact ⟨hcircuit, hlevels ▸ hc.fits_levels hpast.takes⟩

theorem Watched.step {p : List (Simulator α) × Simulator α} (hp : Watched c p) {sample : List α}
    (h : p.2.step sample = .ok s') : Watched c (s' :: p.1, s') := by
  obtain ⟨past, hpast, rfl, hlevels, hsteps⟩ := hp
  obtain ⟨⟨⟩, hsample, h⟩ := ok_of_bind h
  cases h
  have hnew : settleAll sample #[] p.2.circuit.cells.toList p.2.levels.toList =
      p.2.circuit.levels (sample :: past) := by
    rw [hlevels, Circuit.levels]
  exact ⟨sample :: past, .step hpast hsample hnew, rfl, hnew, by simp [hsteps]⟩

theorem watchInPlace_does (hc : c.Sound) (hs : s.Runs c) (request : Request α) :
    (watchInPlace request).Does s ((s.serve request).map fun p => (p.2, p.2)) :=
  (hs.serveInPlace_does hc request).bind_of_ok fun _ _ => rfl

theorem watched_watched (hc : c.Sound) (requests : List (Request α)) :
    Watched c (watched c requests) := by
  refine foldl_follow (g := fun request s => (s.serve request).map fun p => (p.2, p.2))
    (fun request p hp => watchInPlace_does hc (hp.runs hc) request) (fun request p s s' hp h =>
      ?_) requests ⟨[], .start, rfl, rfl, rfl⟩
  cases hserve : p.2.serve request with
  | error e => simp [hserve, Except.map] at h
  | ok q =>
    obtain ⟨values, s''⟩ := q
    simp only [hserve, Except.map, Except.ok.injEq, Prod.mk.injEq] at h
    obtain ⟨rfl, rfl⟩ := h
    obtain ⟨sample, hstep⟩ := exists_step_of_serve hserve
    exact hp.step hstep

theorem read?_eq_some {b : Bus} (hfits : Fits c s.levels) (hb : ∀ p ∈ b, c.Has p) :
    s.read? b = some (s.read b) := Levels.read?_eq fun p hp => (hb p hp).readPin?_eq hfits

theorem Passes.read?_eq {moments : List (Simulator α)} {past : List (List α)}
    (h : Passes c moments past) (hc : c.Sound) {b : Bus} (hb : ∀ p ∈ b, c.Has p) {age : Nat}
    (hs : moments[age]? = some s) :
    s.read? b = some (b.map fun p => earlier (c.trace p past) age) := by
  rw [read?_eq_some (h.fits hc s (List.mem_of_getElem? hs)) hb, read, Levels.read]
  refine congrArg some (List.map_congr_left fun p _ => ?_)
  rw [h.trace_eq, earlier, List.getD_eq_getElem?_getD, List.getElem?_map, hs]
  rfl

end Simulator

@[simp] theorem accumulate_newest (xs : List α) :
    accumulate (earlier · 0) xs = xs.reverse.foldl (· + ·) 0 := by
  induction xs with
  | nil => rfl
  | cons x xs ih => simp [accumulate, ih]

namespace Simulator

variable {c : Circuit α} {p : List (Simulator α) × Simulator α} {id : Nat} {source : Bus}

/-- The part of a delay cell's bus for an age shows what the source showed that many samples ago. -/
theorem Watched.delay_shows (hp : Watched c p) (hc : c.Sound) {window : Nat}
    (hcell : c.cells[id]? = some (.delay source window)) {age : Nat} (hage : age < window) :
    ∃ values, p.2.read? (Bus.range id (age * source.length) source.length) = some values ∧
      (∀ s, p.1[age]? = some s → s.read? source = some values) ∧
      (p.1.length ≤ age → values = List.replicate source.length 0) := by
  have hruns := hp.runs hc
  obtain ⟨past, hpast, -, hlevels, -⟩ := hp
  have htap : ∀ q ∈ Bus.range id (age * source.length) source.length, c.Has q := by
    intro q hq
    obtain ⟨i, hi, rfl⟩ := Bus.mem_range.mp hq
    have hlt : age * source.length + i < source.length * window := by
      calc age * source.length + i < (age + 1) * source.length := by
            rw [Nat.add_mul, Nat.one_mul]; omega
        _ ≤ source.length * window := by rw [Nat.mul_comm]; exact Nat.mul_le_mul_left _ hage
    exact ⟨_, hcell, hlt⟩
  refine ⟨source.map fun q => earlier (c.trace q past) age, ?_, fun s hs => ?_, fun hage => ?_⟩
  · rw [read?_eq_some hruns.fits htap, read, hlevels]
    refine congrArg some (List.ext_getElem? fun i => ?_)
    rcases Nat.lt_or_ge i source.length with hi | hi
    · have hq : source[i]? = some source[i] := List.getElem?_eq_getElem hi
      rw [Levels.getElem?_read _ (Bus.getElem?_range hi),
        hc.readPin_delay hcell hq hage hpast.takes, List.getElem?_map, hq]
      rfl
    · rw [List.getElem?_eq_none (by simpa using hi), List.getElem?_eq_none (by simpa using hi)]
  · exact hpast.read?_eq hc (hc.sources id _ hcell source (by simp [Cell.sources]) · · |>.2) hs
  · refine List.eq_replicate_iff.mpr ⟨by simp, fun x hx => ?_⟩
    obtain ⟨q, -, rfl⟩ := List.mem_map.mp hx
    rw [hpast.trace_eq, earlier, List.getD_eq_getElem?_getD,
      List.getElem?_eq_none (by simpa using hage), Option.getD_none]

/-- An accumulator shows the sums of what the pins of its source have shown. -/
theorem Watched.accumulator_shows (hp : Watched c p) (hc : c.Sound)
    (hcell : c.cells[id]? = some (.accumulator source)) :
    ∃ totals, p.2.read? (Bus.range id 0 source.length) = some totals ∧
    totals.length = source.length ∧
      ∀ (i : Nat) (q : Pin), source[i]? = some q → ∃ shown, p.1.mapM (·.readPin? q) = some shown ∧
        totals[i]? = some (shown.reverse.foldl (· + ·) 0) := by
  have hruns := hp.runs hc
  obtain ⟨past, hpast, -, hlevels, -⟩ := hp
  have hbus : ∀ q ∈ Bus.range id 0 source.length, c.Has q := by
    intro q hq
    obtain ⟨i, hi, rfl⟩ := Bus.mem_range.mp hq
    exact ⟨_, hcell, by simpa [Cell.size] using hi⟩
  refine ⟨_, read?_eq_some hruns.fits hbus, by simp [read], fun i q hq => ?_⟩
  have hi : i < source.length := (List.getElem?_eq_some_iff.mp hq).1
  have hhas : c.Has q := (hc.sources id _ hcell source (by simp [Cell.sources]) q
    (List.mem_of_getElem? hq)).2
  refine ⟨c.trace q past, ?_, ?_⟩
  · rw [hpast.trace_eq]
    exact mapM_eq_some_map fun s hs => hhas.readPin?_eq (hpast.fits hc s hs)
  · rw [read, hlevels, Levels.getElem?_read _ (Bus.getElem?_range hi), Nat.zero_add,
      hc.readPin_accumulator hcell hq (c.shows_self q) hpast.takes, accumulate_newest]

end Simulator

namespace Circuit

open Simulator

/-- What a simulator shows, given the buses that its cells returned and its states right after each
sample, the newest first. -/
structure Recalls (c : Circuit α) (buses : List Bus) (p : List (Simulator α) × Simulator α) :
    Prop where
  steps_eq : p.2.steps = p.1.length
  /-- The bus of a delay cell has a part for every age below the window. It reads as the source did
  that many samples ago, and as zeros when there were not as many. -/
  delay : ∀ (id : Nat) (source : Bus) (window : Nat), c.cells[id]? = some (.delay source window) →
    ∃ bus, buses[id]? = some bus ∧ ∀ age < window, ∃ tap values,
    Cell.delayTap source window bus age = .ok tap ∧
      p.2.read? tap = some values ∧ (∀ s, p.1[age]? = some s → s.read? source = some values) ∧
      (p.1.length ≤ age → values = List.replicate source.length 0)
  /-- The bus of an accumulator reads as the sums of what each pin of the source showed, from the
  first sample on. -/
  accumulator : ∀ (id : Nat) (source : Bus), c.cells[id]? = some (.accumulator source) →
    ∃ bus totals, buses[id]? = some bus ∧ p.2.read? bus = some totals ∧
    totals.length = source.length ∧
      ∀ (i : Nat) (q : Pin), source[i]? = some q → ∃ shown, p.1.mapM (·.readPin? q) = some shown ∧
        totals[i]? = some (shown.reverse.foldl (· + ·) 0)

def lagging : List (Cell ℚ) :=
  [.input 1, .accumulator [⟨0, 0⟩], .delay [⟨0, 0⟩] 0, .delay [⟨1, 0⟩, ⟨0, 0⟩] 2]

end Circuit
end StreamStats
