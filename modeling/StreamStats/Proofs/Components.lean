import StreamStats.Proofs.Agreement
import StreamStats.Proofs.Declared

/-! Components do not mix. Of samples of any width, a windowed feature makes in every component what
it makes of the samples of that component alone; so does its circuit, where windows of all
components lie in one delay cell. Each component goes through the same operations in the same order,
so no law of the arithmetic is needed. -/

namespace StreamStats

def component {α : Type} (j : Nat) (sample : List α) : List α := sample[j]?.toList

@[simp] theorem length_component {α : Type} {j : Nat} {sample : List α} (hj : j < sample.length) :
    (component j sample).length = 1 := by
  rw [component, List.getElem?_eq_getElem hj, Option.toList_some, List.length_singleton]

@[simp] theorem component_eq_nil {α : Type} {j : Nat} {sample : List α} (hj : sample.length ≤ j) :
    component j sample = [] := by
  rw [component, List.getElem?_eq_none hj, Option.toList_none]

variable {α : Type} [Scalar α]

@[simp] theorem earlier_component (j : Nat) (sample : List α) :
    earlier (component j sample) 0 = earlier sample j := by
  rw [earlier, earlier, component, List.getD_eq_getElem?_getD, List.getD_eq_getElem?_getD]
  cases sample[j]? <;> rfl

@[simp] theorem column_map_component (j : Nat) (samples : List (List α)) :
    column 0 (samples.map (component j)) = column j samples := by
  rw [column, column, List.map_map]
  exact List.map_congr_left fun sample _ => earlier_component j sample

/-- What is made of one component alone is that component of what is made of all. -/
@[simp] theorem columns_map_component (f : List α → α) (j : Nat) (samples : List (List α)) :
    columns f (samples.map (component j)) = component j (columns f samples) := by
  have hwidth : widthOf (samples.map (component j)) = (component j (samples.headD [])).length := by
    cases samples <;> simp [widthOf, component]
  rcases Nat.lt_or_ge j (widthOf samples) with hj | hj
  · rw [columns, hwidth, length_component hj, List.range_one, List.map_singleton,
      column_map_component, component, columns, List.getElem?_map, List.getElem?_range hj,
      Option.map_some, Option.toList_some]
  · rw [columns, hwidth, component_eq_nil hj, component_eq_nil (by rwa [length_columns]),
      List.length_nil, List.range_zero, List.map_nil]

namespace Feature

/-- The values for samples fed one after another, up to the first that is refused. -/
def values (f : Feature α) : List (List α) → Except FeatureError (List (List α))
  | [] => return []
  | sample :: samples => do
    let (value, f) ← f.feed [sample]
    return value :: (← f.values samples)

variable {f f' : Feature α} {statistic : Statistic} {source source' size width j : Nat}
    {past samples : List (List α)} {sample : List α}

/-- A feature that has seen samples and one that has seen a component of them, each fed one more. -/
theorem feed_component (hj : j < width) (h : f.stage.Holds statistic source size past)
    (h' : f'.stage.Holds statistic source' size (past.map (component j)))
    (hpast : ∀ s ∈ past, s.length = width) (hsample : sample.length = width) :
    ∃ value g g', f.feed [sample] = .ok (value, g) ∧
    f'.feed [component j sample] = .ok (component j value, g') ∧
      value.length = width ∧ g.stage.Holds statistic source size (sample :: past) ∧
      g'.stage.Holds statistic source' size ((sample :: past).map (component j)) := by
  have hpast' : ∀ s ∈ past.map (component j), s.length = 1 :=
    List.forall_mem_map.mpr fun s hs => length_component (hpast s hs ▸ hj)
  have hsample' : (component j sample).length = 1 := length_component (hsample ▸ hj)
  obtain ⟨stage, hfeed, hstage⟩ :=
    h.feed (refusal?_eq_none_of_widths (Nat.zero_lt_of_lt hj) hpast hsample)
  obtain ⟨stage', hfeed', hstage'⟩ :=
    h'.feed (refusal?_eq_none_of_widths Nat.one_pos hpast' hsample')
  rw [← List.map_cons, columns_map_component] at hfeed'
  refine ⟨columns (statistic.value size) (sample :: past), ⟨f.id, stage⟩, ⟨f'.id, stage'⟩, ?_, ?_,
    ?_, hstage, hstage'⟩
  · rw [Feature.feed, hfeed]
    rfl
  · rw [Feature.feed, hfeed']
    rfl
  · rw [length_columns]
    exact hsample

theorem values_component (hj : j < width) (h : f.stage.Holds statistic source size past)
    (h' : f'.stage.Holds statistic source' size (past.map (component j)))
    (hpast : ∀ s ∈ past, s.length = width) (hsamples : ∀ s ∈ samples, s.length = width) :
    ∃ values, f.values samples = .ok values ∧
    f'.values (samples.map (component j)) = .ok (values.map (component j)) ∧
      ∀ value ∈ values, value.length = width := by
  induction samples generalizing f f' past with
  | nil => exact ⟨[], rfl, rfl, List.forall_mem_nil _⟩
  | cons sample samples ih =>
    obtain ⟨hsample, hsamples⟩ := List.forall_mem_cons.mp hsamples
    obtain ⟨value, g, g', hfeed, hfeed', hvalue, hg, hg'⟩ := feed_component hj h h' hpast hsample
    obtain ⟨values, hvalues, hvalues', hwidths⟩ :=
      ih hg hg' (List.forall_mem_cons.mpr ⟨hsample, hpast⟩) hsamples
    refine ⟨value :: values, ?_, ?_, List.forall_mem_cons.mpr ⟨hvalue, hwidths⟩⟩
    · rw [Feature.values, hfeed]
      show (do return value :: (← g.values samples)) = _
      rw [hvalues]
      rfl
    · rw [List.map_cons, Feature.values, hfeed']
      show (do return component j value :: (← g'.values (samples.map (component j)))) = _
      rw [hvalues']
      rfl

/-- The same feature over samples of a width and over samples of one number. -/
inductive Narrows (width : Nat) : Feature α → Feature α → Prop where
  | input (id id' : String) : Narrows width (ofInput id width) (ofInput id' 1)
  | windowed {f f' : Feature α} (id id' : String) (statistic : Statistic) (source size : Nat) :
      ofWindow id statistic source size = .ok f → ofWindow id' statistic source size = .ok f' →
      Narrows width f f'

omit [Scalar α] in
theorem Narrows.dimensions (h : f.Narrows width f') :
    (∀ n, f.stage = .input n → n = width) ∧ ∀ n, f'.stage = .input n → n = 1 := by
  cases h with
  | input id id' =>
    exact ⟨fun n hn => (Stage.input.inj hn).symm, fun n hn => (Stage.input.inj hn).symm⟩
  | windowed id id' statistic source size hf hf' =>
    obtain ⟨-, rfl⟩ := ofWindow_eq_ok_iff.mp hf
    obtain ⟨-, rfl⟩ := ofWindow_eq_ok_iff.mp hf'
    constructor <;> intro n hn <;> cases statistic <;> cases hn

end Feature

namespace Circuit

open Feature (Narrows)

variable {c c' : Circuit α} {buses buses' : Array Bus} {bus bus' source source' : Bus}
    {past samples : List (List α)}
  {allowed : Nat → Prop} {features features' : List (Feature α)} {width j size : Nat}

theorem Sound.carried_input (hc : c.Sound) {cell : Nat}
    (hcell : c.cells[cell]? = some (.input size)) (hs : c.Takes past)
    (hwidths : ∀ s ∈ past, s.length = size) : c.carried (Bus.range cell 0 size) past = past := by
  induction past with
  | nil => rfl
  | cons sample past ih =>
    obtain ⟨hsample, hpast⟩ := List.forall_mem_cons.mp hwidths
    rw [carried, hc.read_input hcell hs hsample, ih (List.forall_mem_cons.mp hs).2 hpast]

/-- Of one component of the samples, the one bus carries that component of what the other carries of
them all. -/
def Picks (c c' : Circuit α) (width j : Nat) (bus bus' : Bus) : Prop :=
  ∀ past : List (List α), (∀ sample ∈ past, sample.length = width) →
    c'.carried bus' (past.map (component j)) = (c.carried bus past).map (component j)

/-- Buses that carry the same statistic do so where their sources do. -/
theorem Picks.carries {f : List α → α} (hsource : Picks c c' width j source source')
    (h : c.Carries source ⟨bus, f, true⟩) (h' : c'.Carries source' ⟨bus', f, true⟩) (hc : c.Sound)
    (hc' : c'.Sound) (htakes : ∀ sample : List α, sample.length = width →
      Simulator.checkSample c sample = .ok () ∧
      Simulator.checkSample c' (component j sample) = .ok ()) :
    Picks c c' width j bus bus' := by
  intro past hpast
  induction past with
  | nil => rfl
  | cons sample past ih =>
    have hs : c.Takes (sample :: past) := fun s hs => (htakes s (hpast s hs)).1
    have hs' : c'.Takes ((sample :: past).map (component j)) :=
      List.forall_mem_map.mpr fun s hs => (htakes s (hpast s hs)).2
    have hnow := hsource _ hpast
    rw [List.map_cons] at hs' hnow ⊢
    rw [carried, carried, h.read_eq hc hs, h'.read_eq hc' hs', hnow, columns_map_component,
      ih (List.forall_mem_cons.mp hpast).2, List.map_cons]

theorem Picks.read_eq (h : Picks c c' width j bus bus') (hsome : samples ≠ [])
    (hsamples : ∀ sample ∈ samples, sample.length = width) :
    (c'.levels (samples.map (component j)).reverse).read bus' =
      component j ((c.levels samples.reverse).read bus) := by
  obtain ⟨last, past, hpast⟩ := List.exists_cons_of_ne_nil (List.reverse_ne_nil_iff.mpr hsome)
  have hcarried := h samples.reverse fun sample hmem => hsamples sample (List.mem_reverse.mp hmem)
  rw [← List.map_reverse]
  rw [hpast, List.map_cons] at hcarried ⊢
  exact (List.cons.inj hcarried).1

/-- Every bus picks the component: those of inputs do, and every other feature reads an earlier
one. -/
theorem Hosts.picks (h : c.Hosts (· = width) allowed buses features)
    (h' : c'.Hosts (· = 1) allowed buses' features')
    (hfresh : ∀ (i : Nat) (f : Feature α), features[i]? = some f → f.Fresh i)
    (hnarrows : List.Forall₂ (Narrows width) features features') (hj : j < width)
    (htakes : ∀ sample : List α, sample.length = width →
      Simulator.checkSample c sample = .ok () ∧
      Simulator.checkSample c' (component j sample) = .ok ())
    (i : Nat) {bus bus' : Bus} (hbus : buses[i]? = some bus) (hbus' : buses'[i]? = some bus') :
    Picks c c' width j bus bus' := by
  have hc := h.wirable.built.sound
  have hc' := h'.wirable.built.sound
  induction i using Nat.strong_induction_on generalizing bus bus' with
  | h i ih =>
    obtain ⟨f, f', hf, hf', hnarrow⟩ :
        ∃ f f', features[i]? = some f ∧ features'[i]? = some f' ∧ f.Narrows width f' := by
      have hi : i < features.length := h.size_eq ▸ (Array.getElem?_eq_some_iff.mp hbus).1
      have hi' : i < features'.length := h'.size_eq ▸ (Array.getElem?_eq_some_iff.mp hbus').1
      exact ⟨_, _, List.getElem?_eq_getElem hi, List.getElem?_eq_getElem hi', hnarrows.get hi hi'⟩
    have hserves := h.serves i f bus hf hbus
    have hserves' := h'.serves i f' bus' hf' hbus'
    cases hnarrow with
    | input id id' =>
      obtain ⟨cell, hcell, rfl⟩ := hserves.of_input
      obtain ⟨cell', hcell', rfl⟩ := hserves'.of_input
      intro past hpast
      rw [hc.carried_input hcell (fun s hs => (htakes s (hpast s hs)).1) hpast,
        hc'.carried_input hcell' (List.forall_mem_map.mpr fun s hs => (htakes s (hpast s hs)).2)
        (List.forall_mem_map.mpr fun s hs => length_component (hpast s hs ▸ hj))]
    | windowed id id' statistic source size hnew hnew' =>
      obtain ⟨-, rfl⟩ := Feature.ofWindow_eq_ok_iff.mp hnew
      obtain ⟨-, rfl⟩ := Feature.ofWindow_eq_ok_iff.mp hnew'
      obtain ⟨sourceBus, hsource, hcarries⟩ := hserves.of_windowed
      obtain ⟨sourceBus', hsource', hcarries'⟩ := hserves'.of_windowed
      have hlt : source < i := (hfresh i _ hf).source_lt source (by cases statistic <;> rfl)
      exact (ih source hlt hsource hsource').carries hcarries hcarries' hc hc' htakes

end Circuit

namespace Registry

open Feature (Narrows Statistic)

variable {r r' : Registry α} {width j : Nat}

/-- The circuits of both take samples of the width, the one as they are and the other a component of
them; on the bus of each feature the other shows that component of what the one shows, in every
step. -/
def Separates (r r' : Registry α) (width j : Nat) : Prop :=
  ∃ w w' : Wired α, r.wire = .ok w ∧ r'.wire = .ok w' ∧ w.buses.size = r.size ∧
  w'.buses.size = r.size ∧ ∀ samples, samples ≠ [] → (∀ sample ∈ samples, sample.length = width) →
      ∃ s s', (Simulator.ofCircuit w.circuit).stepEach samples = .ok s ∧
        (Simulator.ofCircuit w'.circuit).stepEach (samples.map (component j)) = .ok s' ∧
        ∀ (i : Nat) (bus bus' : Bus), w.buses[i]? = some bus → w'.buses[i]? = some bus' →
          (s.read bus).length = width ∧ s'.read bus' = component j (s.read bus)

theorem Built.separates (hr : r.Built) (hr' : r'.Built) (hne : r.entries ≠ #[]) (hj : j < width)
    (hnarrows : List.Forall₂ (Narrows width) r.features r'.features) : r.Separates r' width j := by
  have hsize : r'.size = r.size := by rw [← length_features, ← length_features, hnarrows.length_eq]
  have hne' : r'.entries ≠ #[] := fun hempty =>
    hne (Array.eq_empty_of_size_eq_zero (hsize.symm.trans (congrArg Array.size hempty)))
  have hdimensions : r.TakesWidth width :=
    ((List.forall₂_and_left _ _).mp (hnarrows.imp fun _ _ h => ⟨h.dimensions.1, h⟩)).1
  have hdimensions' : r'.TakesWidth 1 :=
    ((List.forall₂_and_left _ _).mp (hnarrows.flip.imp fun _ _ h => ⟨h.dimensions.2, h⟩)).1
  obtain ⟨w, hwire, hosts, hwide⟩ := hr.wire hne (Nat.zero_lt_of_lt hj) hdimensions
  obtain ⟨w', hwire', hosts', hnarrow⟩ := hr'.wire hne' Nat.one_pos hdimensions'
  have htakes : ∀ sample : List α, sample.length = width →
      Simulator.checkSample w.circuit sample = .ok () ∧
        Simulator.checkSample w'.circuit (component j sample) = .ok () :=
    fun sample hsample => ⟨(hwide sample).mpr hsample,
      (hnarrow _).mpr (length_component (hsample ▸ hj))⟩
  refine ⟨w, w', hwire, hwire',
    by rw [hosts.size_eq, length_features], by rw [hosts'.size_eq, length_features, hsize],
    fun samples hsome hsamples => ?_⟩
  obtain ⟨s, hs, hlevels⟩ := Simulator.stepEach_of_takes (s := .ofCircuit w.circuit) rfl
    (show _ = w.circuit.levels [] from rfl) fun sample hsample =>
      (htakes sample (hsamples sample hsample)).1
  obtain ⟨s', hs', hlevels'⟩ := Simulator.stepEach_of_takes (s := .ofCircuit w'.circuit) rfl
    (show _ = w'.circuit.levels [] from rfl)
    (List.forall_mem_map.mpr fun sample hsample => (htakes sample (hsamples sample hsample)).2)
  refine ⟨s, s', hs, hs', fun i bus bus' hbus hbus' => ⟨?_, ?_⟩⟩
  · rw [Simulator.read, Levels.length_read]
    exact hosts.takes_length bus (Array.mem_of_getElem? hbus)
  · rw [List.append_nil] at hlevels hlevels'
    rw [Simulator.read, Simulator.read, hlevels, hlevels']
    exact (hosts.picks hosts' (fun i f => hr.fresh.feature) hnarrows hj htakes i hbus hbus').read_eq
      hsome hsamples

/-- A component of what a windowed feature returns is what such a feature returns of that component
of the samples alone, whatever the width; and so it is with what the circuits of such features
show. -/
theorem components_independent {width j : Nat} (hj : j < width) :
    (∀ (statistic : Statistic) (id id' : String) (source source' size : Nat) (f f' : Feature α),
      Feature.ofWindow id statistic source size = .ok f →
      Feature.ofWindow id' statistic source' size = .ok f' →
        ∀ samples, (∀ sample ∈ samples, sample.length = width) →
          ∃ values, f.values samples = .ok values ∧
            f'.values (samples.map (component j)) = .ok (values.map (component j)) ∧
            ∀ value ∈ values, value.length = width) ∧
    ∀ r r' : Registry α, r.Built → r'.Built → r.entries ≠ #[] →
      List.Forall₂ (Narrows width) r.features r'.features → r.Separates r' width j := by
  refine ⟨fun statistic id id' source source' size f f' hf hf' samples hsamples => ?_,
    fun r r' hr hr' hne hnarrows => hr.separates hr' hne hj hnarrows⟩
  have hsize := (Feature.ofWindow_eq_ok_iff.mp hf).1
  obtain ⟨w, hw, hholds⟩ := Feature.exists_ofWindow (α := α) id statistic source hsize
  obtain ⟨w', hw', hholds'⟩ := Feature.exists_ofWindow (α := α) id' statistic source' hsize
  obtain rfl := Except.ok.inj (hw.symm.trans hf)
  obtain rfl := Except.ok.inj (hw'.symm.trans hf')
  exact Feature.values_component hj (Feature.Stage.holds_ofWindow hholds statistic)
    (Feature.Stage.holds_ofWindow hholds' statistic) (List.forall_mem_nil _) hsamples

def paired (width : Nat) : Registry Float := ⟨#[
  ⟨.ofInput "x" width, []⟩,
  ⟨⟨"m", .ofWindow (.blank 0 2) .mean⟩, []⟩,
  ⟨⟨"v", .ofWindow (.blank 1 2) .incrementalVariance⟩, []⟩]⟩

theorem built_paired (width : Nat) : (paired width).Built := by
  have hx := (Built.empty (α := Float)).push_input "x" width (by simp [features, Registry.empty])
  have hm := hx.push_windowed "m" .mean 0 2
    (by simp [features, Feature.ofInput, Registry.empty]) (by simp [size]) (by decide)
  exact hm.push_windowed "v" .incrementalVariance 1 2
    (by simp [features, Feature.ofInput, Registry.empty]) (by simp [size, Registry.empty])
    (by decide)

theorem narrows_paired (width : Nat) :
    List.Forall₂ (Narrows width) (paired width).features (paired 1).features :=
  .cons (.input "x" "x") (.cons (.windowed "m" "m" .mean 0 2 rfl rfl)
    (.cons (.windowed "v" "v" .incrementalVariance 1 2 rfl rfl) .nil))

/-- The second of two components, and its circuit. -/
theorem components_independent_paired :
    (⟨"m", .ofWindow (.blank 0 2) .mean⟩ : Feature Float).values [[1, 10], [3, 20]] =
      .ok [[0.5, 5], [2, 15]] ∧
    (⟨"m", .ofWindow (.blank 0 2) .mean⟩ : Feature Float).values [[10], [20]] = .ok [[5], [15]] ∧
    ∃ w w' s s', (paired 2).wire = .ok w ∧ (paired 1).wire = .ok w' ∧
      w.buses.size = 3 ∧ w'.buses.size = 3 ∧
      (Simulator.ofCircuit w.circuit).stepEach [[1, 10], [3, 20]] = .ok s ∧
      (Simulator.ofCircuit w'.circuit).stepEach [[10], [20]] = .ok s' ∧
      ∀ (i : Nat) (bus bus' : Bus), w.buses[i]? = some bus → w'.buses[i]? = some bus' →
        (s.read bus).length = 2 ∧ s'.read bus' = component 1 (s.read bus) := by
  have hwide : ∀ sample ∈ ([[1, 10], [3, 20]] : List (List Float)), sample.length = 2 := by simp
  have hvalues : (⟨"m", .ofWindow (.blank 0 2) .mean⟩ : Feature Float).values [[1, 10], [3, 20]] =
    .ok [[0.5, 5], [2, 15]] := rfl
  obtain ⟨heager, hwired⟩ := components_independent (α := Float) (by decide : 1 < 2)
  obtain ⟨values, hf, hf', -⟩ := heager .mean "m" "m" 0 0 2 _ _ rfl rfl _ hwide
  obtain rfl := Except.ok.inj (hvalues.symm.trans hf)
  obtain ⟨w, w', hw, hw', hsize, hsize', hruns⟩ :=
    hwired (paired 2) (paired 1) (built_paired 2) (built_paired 1) (by simp [paired])
    (narrows_paired 2)
  obtain ⟨s, s', hs, hs', hread⟩ := hruns _ (by simp) hwide
  exact ⟨hvalues, hf', w, w', s, s', hw, hw', hsize, hsize', hs, hs', hread⟩

end Registry
end StreamStats
