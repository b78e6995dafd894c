import StreamStats.Proofs.Registries

/-! Features fed one after another against the circuit that they are wired into. In every step a
feature returns what its bus shows, because it has seen what the bus of its source has carried and
both make the same of it. -/

namespace StreamStats

variable {α : Type} [Scalar α]

namespace Circuit

/-- What a bus has carried, the newest first. -/
def carried (c : Circuit α) (b : Bus) : List (List α) → List (List α)
  | [] => []
  | sample :: past => (c.levels (sample :: past)).read b :: c.carried b past

variable {c : Circuit α} {sample : List α} {past : List (List α)} {source bus : Bus} {p : Pin}
    {i : Nat}

@[simp] theorem widthOf_carried (c : Circuit α) (b : Bus) (sample : List α) (past : List (List α)) :
    widthOf (c.carried b (sample :: past)) = b.length := Levels.length_read _ _

theorem column_carried (hp : bus[i]? = some p) (past : List (List α)) :
    column i (c.carried bus past) = c.trace p past := by
  induction past with
  | nil => rfl
  | cons sample past ih =>
    rw [carried, column_cons, ih, trace, earlier, List.getD_eq_getElem?_getD,
      Levels.getElem?_read _ hp, Option.getD_some]

/-- A bus shows its signal, component by component. -/
theorem Carries.read_eq {f : List α → α} {varies : Bool} (h : c.Carries source ⟨bus, f, varies⟩)
    (hc : c.Sound) (hs : c.Takes (sample :: past)) :
    (c.levels (sample :: past)).read bus = columns f (c.carried source (sample :: past)) := by
  have hlen : bus.length = source.length := h.length_eq
  refine eq_columns (by simp [hlen]) fun i hi => ?_
  rw [widthOf_carried] at hi
  obtain ⟨p, hp⟩ : ∃ p, bus[i]? = some p := ⟨_, List.getElem?_eq_getElem (hlen ▸ hi)⟩
  obtain ⟨q, hq⟩ : ∃ q, source[i]? = some q := ⟨_, List.getElem?_eq_getElem hi⟩
  rw [Levels.getElem?_read _ hp, column_carried hq,
    h.shows c (.refl c) hc i p q hp hq sample past hs]

theorem Sound.read_input (hc : c.Sound) {id size : Nat} (hcell : c.cells[id]? = some (.input size))
    (hs : c.Takes (sample :: past)) (hsize : sample.length = size) :
    (c.levels (sample :: past)).read (Bus.range id 0 size) = sample := by
  refine List.ext_getElem? fun i => ?_
  rcases Nat.lt_or_ge i size with hi | hi
  · rw [Levels.getElem?_read _ (Bus.getElem?_range hi), Nat.zero_add, hc.readPin_input hcell hs,
      getElem?_eq_earlier (hsize ▸ hi)]
  · rw [List.getElem?_eq_none (by simpa using hi), List.getElem?_eq_none (hsize ▸ hi)]

end Circuit

namespace Feature

variable (α) in
def Statistic.Agrees (statistic : Statistic) : Prop :=
  ∀ (size : Nat) (xs : List α), 0 < size → statistic.value size xs = statistic.wired size xs

/-- A feature and its bus after samples: the feature has seen what the bus of its source has
carried. -/
inductive InStep (c : Circuit α) (buses : Array Bus) (width : Nat) (past : List (List α))
    (index : Nat) :
    Feature α → Bus → Prop where
  | input (id : String) {cell : Nat} : c.cells[cell]? = some (.input width) →
      InStep c buses width past index ⟨id, .input width⟩ (Bus.range cell 0 width)
  | windowed (id : String) {stage : Stage α} {statistic : Statistic} {source size : Nat}
      {sourceBus bus : Bus} : source < index → buses[source]? = some sourceBus → sourceBus ≠ [] →
      statistic.Agrees α → c.Carries sourceBus ⟨bus, statistic.wired size, true⟩ →
          stage.Holds statistic source size (c.carried sourceBus past) →
            InStep c buses width past index ⟨id, stage⟩ bus

variable {c : Circuit α} {buses : Array Bus} {width index : Nat} {past : List (List α)}
    {sample : List α} {f : Feature α} {bus : Bus} {fed : Array (Registry.Entry α)}

theorem InStep.start (hserves : c.Serves buses f bus) (hfresh : f.Fresh index)
    (hdimension : ∀ dimension, f.stage = .input dimension → dimension = width)
    (hsource : ∀ b ∈ buses, b ≠ []) (hagrees : ∀ statistic, f.kind = .windowed statistic →
      statistic.Agrees α) :
    f.InStep c buses width [] index bus := by
  cases hserves with
  | input id hcell =>
    obtain rfl := hdimension _ rfl
    exact .input id hcell
  | windowed id hw hbus hcarries =>
    rename_i statistic w source
    have hstage := Stage.holds_ofWindow hw statistic
    refine .windowed id (hfresh.source_lt _ hstage.source_eq) hbus
      (hsource _ (Array.mem_of_getElem? hbus)) (hagrees statistic ?_) hcarries hstage
    cases statistic <;> rfl

/-- In a step, a feature is fed what the bus of its source shows and returns what its own bus
shows. -/
theorem InStep.feed (hf : f.InStep c buses width past index bus) (hc : c.Sound)
    (hs : c.Takes (sample :: past)) (hwidth : sample.length = width)
    (hfed : ∀ j < index, ∀ b, buses[j]? = some b →
      ∃ e, fed[j]? = some e ∧ e.value = (c.levels (sample :: past)).read b) :
    ∃ f', f.feed (Registry.inputs fed sample f) = .ok ((c.levels (sample :: past)).read bus, f') ∧
      f'.InStep c buses width (sample :: past) index bus := by
  cases hf with
  | input id hcell =>
    refine ⟨⟨id, .input width⟩, ?_, .input id hcell⟩
    rw [hc.read_input hcell hs hwidth]
    simp only [Registry.inputs, source?, Stage.window?, Option.map_none, Feature.feed, Stage.feed,
      if_pos hwidth]
    rfl
  | windowed id hlt hbus hne hagrees hcarries hstage =>
    rename_i stage statistic source size sourceBus
    obtain ⟨e, he, hvalue⟩ := hfed source hlt sourceBus hbus
    have hinputs : Registry.inputs fed sample ⟨id, stage⟩ =
        [(c.levels (sample :: past)).read sourceBus] := by
      rw [Registry.inputs, source?, hstage.source_eq]
      show [((fed[source]?).map Registry.Entry.value).getD []] = _
      rw [he, ← hvalue]
      rfl
    have htaken : refusal? id (c.carried sourceBus past)
        ((c.levels (sample :: past)).read sourceBus) = none := by
      refine refusal?_eq_none_iff.mpr ⟨fun hempty => hne ?_, fun hpast => ?_⟩
      · exact List.length_eq_zero_iff.mp
          (by rw [← Levels.length_read (c.levels (sample :: past)), hempty]; rfl)
      · cases past with
        | nil => exact absurd rfl hpast
        | cons last past => rw [Circuit.widthOf_carried, Levels.length_read]
    obtain ⟨stage', hfeed, hstage'⟩ := hstage.feed htaken
    refine ⟨⟨id, stage'⟩, ?_, .windowed id hlt hbus hne hagrees hcarries hstage'⟩
    have hshown : columns (statistic.value size) (c.carried sourceBus (sample :: past)) =
        (c.levels (sample :: past)).read bus := by
      rw [hcarries.read_eq hc hs, funext fun xs => hagrees size xs hstage.size_pos]
    rw [hinputs, ← hshown]
    simp only [Feature.feed, hfeed]
    rfl

end Feature

/-- Step for samples one after another, up to the first that is refused. -/
def Simulator.stepEach (s : Simulator α) (samples : List (List α)) :
    Except CircuitError (Simulator α) := samples.foldlM step s

theorem Simulator.stepEach_of_takes {s : Simulator α} {c : Circuit α} {past samples : List (List α)}
    (hcircuit : s.circuit = c) (hlevels : s.levels = c.levels past) (hsamples : c.Takes samples) :
    ∃ s', s.stepEach samples = .ok s' ∧ s'.levels = c.levels (samples.reverse ++ past) := by
  induction samples generalizing s past with
  | nil => exact ⟨s, rfl, hlevels⟩
  | cons sample samples ih =>
    obtain ⟨hsample, hsamples⟩ := List.forall_mem_cons.mp hsamples
    have hstep : s.step sample = .ok ⟨c, c.levels (sample :: past), s.steps + 1⟩ := by
      rw [Simulator.step, hcircuit, hsample, hlevels]
      rfl
    obtain ⟨s', hs', hlevels'⟩ :=
      ih (s := ⟨c, c.levels (sample :: past), s.steps + 1⟩) rfl rfl hsamples
    refine ⟨s', ?_, by simpa using hlevels'⟩
    rw [stepEach, List.foldlM_cons, hstep]
    exact hs'

namespace Registry

def feedEach (r : Registry α) (samples : List (List α)) : Except FeatureError (Registry α) :=
  samples.foldlM (fun r sample => (r.feed sample).1.map fun _ => (r.feed sample).2) r

/-- The features and their buses after samples; every value is what the bus shows. -/
structure InStep (r : Registry α) (c : Circuit α) (buses : Array Bus) (width : Nat)
    (past : List (List α)) : Prop where
  size_eq : r.size = buses.size
  features : ∀ (i : Nat) (e : Entry α) (b : Bus), r.entries[i]? = some e → buses[i]? = some b →
    e.feature.InStep c buses width past i b
  values : ∀ (i : Nat) (e : Entry α) (b : Bus), r.entries[i]? = some e → buses[i]? = some b →
    e.value = (c.carried b past).headD []

variable {r : Registry α} {c : Circuit α} {buses : Array Bus} {width : Nat} {past : List (List α)}
    {sample : List α}

/-- Entries are fed one after another, those before them having had the sample. -/
theorem feedAll_inStep {fed : Array (Entry α)} {rest : List (Entry α)} (hc : c.Sound)
    (hs : c.Takes (sample :: past)) (hwidth : sample.length = width)
    (hfed : ∀ (i : Nat) (e : Entry α) (b : Bus), fed[i]? = some e → buses[i]? = some b →
      e.feature.InStep c buses width (sample :: past) i b ∧
      e.value = (c.levels (sample :: past)).read b)
    (hrest : ∀ (i : Nat) (e : Entry α) (b : Bus), rest[i]? = some e →
      buses[fed.size + i]? = some b → e.feature.InStep c buses width past (fed.size + i) b)
    (hsize : fed.size + rest.length = buses.size) :
    ∃ entries, feedAll sample fed rest = (.ok (), entries) ∧
      InStep ⟨entries⟩ c buses width (sample :: past) := by
  induction rest generalizing fed with
  | nil =>
    exact ⟨fed, rfl, hsize, fun i e b he hb => (hfed i e b he hb).1, fun i e b he hb =>
      (hfed i e b he hb).2⟩
  | cons entry rest ih =>
    have hlt : fed.size < buses.size := by rw [← hsize, List.length_cons]; omega
    obtain ⟨bus, hbus⟩ : ∃ bus, buses[fed.size]? = some bus := ⟨_, Array.getElem?_eq_getElem hlt⟩
    obtain ⟨f', hfeed, hf'⟩ := (hrest 0 entry bus rfl hbus).feed hc hs hwidth fun j hj b hb =>
      ⟨fed[j], Array.getElem?_eq_getElem hj, (hfed j _ b (Array.getElem?_eq_getElem hj) hb).2⟩
    have hfed' : ∀ (i : Nat) (e : Entry α) (b : Bus),
        (fed.push ⟨f', (c.levels (sample :: past)).read bus⟩)[i]? = some e → buses[i]? = some b →
          e.feature.InStep c buses width (sample :: past) i b ∧
          e.value = (c.levels (sample :: past)).read b := by
      intro i e b he hb
      rcases getElem?_push_eq_some_iff.mp he with ⟨rfl, rfl⟩ | ⟨-, he⟩
      · rw [hbus] at hb
        cases hb
        exact ⟨hf', rfl⟩
      · exact hfed i e b he hb
    have hindex : ∀ i, (fed.push ⟨f', (c.levels (sample :: past)).read bus⟩).size + i =
        fed.size + (i + 1) := fun i => by
      rw [Array.size_push]
      omega
    obtain ⟨entries, hentries, hinStep⟩ := ih hfed'
      (fun i e b he hb => by
        rw [hindex] at hb ⊢
        exact hrest (i + 1) e b he hb) (by rw [hindex]; exact hsize)
    exact ⟨entries, by simp only [feedAll, hfeed, hentries], hinStep⟩

/-- One sample keeps registry and circuit in step. -/
theorem InStep.feed (h : r.InStep c buses width past) (hne : r.entries ≠ #[]) (hc : c.Sound)
    (hs : c.Takes (sample :: past)) (hwidth : sample.length = width) :
    ∃ value r', r.feed sample = (.ok value, r') ∧ r'.entries ≠ #[] ∧ r'.InStep c buses width
    (sample :: past) := by
  have hrest : ∀ (i : Nat) (e : Entry α) (b : Bus), r.entries.toList[i]? = some e →
      buses[(#[] : Array (Entry α)).size + i]? = some b →
        e.feature.InStep c buses width past ((#[] : Array (Entry α)).size + i) b :=
        fun i e b he hb => by
    rw [Array.size_empty, Nat.zero_add] at hb ⊢
    exact h.features i e b (by simpa using he) hb
  obtain ⟨entries, hfeed, hentries⟩ := feedAll_inStep hc hs hwidth (by simp) hrest
    (by simpa [Registry.size] using h.size_eq)
  refine ⟨(entries.back?.map Entry.value).getD [], ⟨entries⟩, ?_, fun hempty => hne ?_, hentries⟩
  · simp only [Registry.feed, Array.isEmpty_iff, if_neg hne, hfeed]
    rfl
  · exact Array.eq_empty_of_size_eq_zero ((h.size_eq.trans hentries.size_eq.symm).trans
      (congrArg Array.size hempty))

/-- Samples one after another keep registry and simulator in step. -/
theorem InStep.feedEach {s : Simulator α} {samples : List (List α)}
    (h : r.InStep c buses width past) (hne : r.entries ≠ #[]) (hc : c.Sound)
    (htakes : ∀ sample : List α, Simulator.checkSample c sample = .ok () ↔ sample.length = width)
    (hpast : c.Takes past) (hcircuit : s.circuit = c) (hlevels : s.levels = c.levels past)
    (hsamples : ∀ sample ∈ samples, sample.length = width) :
    ∃ r' s', r.feedEach samples = .ok r' ∧ s.stepEach samples = .ok s' ∧
      r'.InStep c buses width (samples.reverse ++ past) ∧
      s'.levels = c.levels (samples.reverse ++ past) := by
  obtain ⟨s', hs', hlevels'⟩ := Simulator.stepEach_of_takes hcircuit hlevels fun sample hsample =>
    (htakes sample).mpr (hsamples sample hsample)
  suffices hfed : ∃ r', r.feedEach samples = .ok r' ∧
      r'.InStep c buses width (samples.reverse ++ past) by
    obtain ⟨r', hr', h'⟩ := hfed
    exact ⟨r', s', hr', hs', h', hlevels'⟩
  clear hcircuit hlevels hs' hlevels'
  induction samples generalizing r past with
  | nil => exact ⟨r, rfl, h⟩
  | cons sample samples ih =>
    obtain ⟨hwidth, hsamples⟩ := List.forall_mem_cons.mp hsamples
    have hs : c.Takes (sample :: past) :=
      List.forall_mem_cons.mpr ⟨(htakes sample).mpr hwidth, hpast⟩
    obtain ⟨value, r₁, hfeed, hne₁, h₁⟩ := h.feed hne hc hs hwidth
    obtain ⟨r', hr', h'⟩ := ih h₁ hne₁ hs hsamples
    refine ⟨r', ?_, by simpa using h'⟩
    rw [Registry.feedEach, List.foldlM_cons, hfeed]
    exact hr'

/-- The values of the features, fed sample after sample, are those that the circuit shows on their
buses. -/
def Matches (r : Registry α) (width : Nat) : Prop :=
  ∃ w : Wired α, r.wire = .ok w ∧ w.buses.size = r.size ∧
    ∀ samples : List (List α), (∀ sample ∈ samples, sample.length = width) →
      ∃ r' s, r.feedEach samples = .ok r' ∧
      (Simulator.ofCircuit w.circuit).stepEach samples = .ok s ∧
        (samples ≠ [] → ∀ (i : Nat) (bus : Bus), w.buses[i]? = some bus →
          r'.value? i = some (s.read bus))

theorem Built.agrees (hr : r.Built) (hne : r.entries ≠ #[]) (hwidth : 0 < width)
    (hdimensions : r.TakesWidth width)
    (hagrees : ∀ f ∈ r.features, ∀ statistic, f.kind = .windowed statistic → statistic.Agrees α) :
    r.Matches width := by
  have hfresh := hr.fresh
  obtain ⟨w, hwire, hosts, htakes⟩ := hr.wire hne hwidth hdimensions
  have hsize : r.size = w.buses.size := by rw [hosts.size_eq, length_features]
  have hstart : r.InStep w.circuit w.buses width [] := by
    refine ⟨hsize, fun i e b he hb => ?_, fun i e b he _ => (hfresh i e he).2⟩
    have hmem := List.mem_of_getElem? (getElem?_features he)
    refine .start (hosts.serves i _ b (getElem?_features he) hb) (hfresh i e he).1
      (hdimensions _ hmem) (fun b hb hempty => ?_) (hagrees _ hmem)
    have hlen := hosts.takes_length b hb
    rw [hempty] at hlen
    exact Nat.ne_of_lt hwidth hlen
  refine ⟨w, hwire, hsize.symm, fun samples hsamples => ?_⟩
  obtain ⟨r', s, hr', hs, hinStep, hlevels⟩ := hstart.feedEach hne hosts.wirable.built.sound htakes
    (List.forall_mem_nil _) rfl rfl hsamples
  refine ⟨r', s, hr', hs, fun hsome i bus hbus => ?_⟩
  rw [List.append_nil] at hinStep hlevels
  obtain ⟨last, past, hpast⟩ := List.exists_cons_of_ne_nil (List.reverse_ne_nil_iff.mpr hsome)
  obtain ⟨e, he⟩ : ∃ e, r'.entries[i]? = some e :=
    ⟨_, Array.getElem?_eq_getElem
      (hinStep.size_eq.symm ▸ (Array.getElem?_eq_some_iff.mp hbus).1 : i < r'.size)⟩
  rw [value?, he, Option.map_some, hinStep.values i e bus he hbus, Simulator.read, hlevels, hpast]
  rfl

/-- Incremental features compute what their circuits do by the same operations in the same order, so
no law of the arithmetic is needed for them to agree. -/
theorem Built.incremental_matches (hr : r.Built) (hne : r.entries ≠ #[]) (hwidth : 0 < width)
    (hdimensions : r.TakesWidth width)
    (hkinds : ∀ f ∈ r.features, f.kind = .input ∨ f.kind = .windowed .incrementalMean ∨
      f.kind = .windowed .incrementalVariance) : r.Matches width := by
  refine hr.agrees hne hwidth hdimensions fun f hf statistic hstatistic => ?_
  rcases hkinds f hf with hkind | hkind | hkind <;> rw [hkind] at hstatistic <;> cases hstatistic
  all_goals exact fun _ _ _ => rfl

/-- The incremental mean of two samples of two numbers each, and the incremental variance of three
such means. -/
def smoothing : Registry α := ⟨#[
  ⟨.ofInput "x" 2, []⟩,
  ⟨⟨"m", .incrementalMean ⟨0, 2, ⟨#[[], []], 0, 0, none, 0⟩⟩ []⟩, []⟩,
  ⟨⟨"v", .incrementalVariance ⟨1, 3, ⟨#[[], [], []], 0, 0, none, 0⟩⟩ [] []⟩, []⟩]⟩

omit [Scalar α] in
theorem built_smoothing : (smoothing : Registry α).Built := by
  have hx := (Built.empty (α := α)).push_input "x" 2 (by simp [features, Registry.empty])
  have hm := hx.push_windowed "m" .incrementalMean 0 2
    (by simp [features, Feature.ofInput, Registry.empty]) (by simp [size]) (by decide)
  exact hm.push_windowed "v" .incrementalVariance 1 3
    (by simp [features, Feature.ofInput, Registry.empty]) (by simp [size, Registry.empty])
    (by decide)

theorem smoothing_matches : (smoothing : Registry Float).Matches 2 :=
  built_smoothing.incremental_matches (by simp [smoothing]) (by decide)
    (by simp [TakesWidth, features, smoothing, Feature.ofInput])
    (by simp [features, smoothing, Feature.ofInput, Feature.kind, Feature.Stage.kind])

end Registry
end StreamStats
