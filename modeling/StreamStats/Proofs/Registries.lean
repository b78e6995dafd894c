import StreamStats.Proofs.Wiring
import StreamStats.Registry.Description

/-! Registries that came about by declaring features. Every feature has seen no sample and reads an
earlier one, so the circuit that a registry is wired into has a bus for each feature, which carries
what the feature makes of the bus of its source. -/

namespace StreamStats

open ExceptT

variable {α : Type}

namespace Feature

/-- A feature as it is declared at an index: it has seen no sample and reads an earlier feature. -/
inductive Fresh (index : Nat) : Feature α → Prop where
  | input (id : String) (dimension : Nat) : Fresh index ⟨id, .input dimension⟩
  | windowed (id : String) (statistic : Statistic) (w : Window α) :
      w.Holds w.source w.size [] → w.source < index → Fresh index ⟨id, .ofWindow w statistic⟩

theorem fresh_ofWindow {id : String} {statistic : Statistic} {source size index : Nat}
    {f : Feature α} (h : ofWindow id statistic source size = .ok f)
    (hsource : ∀ s ∈ f.source?, s < index) : f.Fresh index := by
  rcases Nat.eq_zero_or_pos size with rfl | hsize
  · cases h
  · obtain ⟨w, hw, hholds⟩ := exists_ofWindow (α := α) id statistic source hsize
    obtain rfl := Except.ok.inj (hw.symm.trans h)
    refine .windowed id statistic w (hholds.source_eq.symm ▸ hholds.size_eq.symm ▸ hholds)
      (hsource w.source ?_)
    cases statistic <;> rfl

end Feature

namespace Registry

/-- The registries that declaring features leads to, one feature after another, by the feature or by
a description of it. -/
inductive Built : Registry α → Prop where
  | empty : Built empty
  | input {r r' : Registry α} {index : Nat} (id : String) (dimension : Nat) :
      Built r → r.insert (.ofInput id dimension) = .ok (index, r') → Built r'
  | windowed {r r' : Registry α} {index : Nat} {f : Feature α} (id : String)
      (statistic : Feature.Statistic) (source size : Nat) :
      Feature.ofWindow id statistic source size = .ok f → Built r →
        r.insert f = .ok (index, r') → Built r'
  | described {r r' : Registry α} {index : Nat} (fields : List String) :
      Built r → r.declare fields = .ok (index, r') → Built r'

/-- All samples are of this width, if any feature takes them in. -/
def TakesWidth (r : Registry α) (width : Nat) : Prop :=
  ∀ f ∈ r.features, ∀ dimension, f.stage = .input dimension → dimension = width

/-- The sizes that a circuit for features over samples of a width needs: for numbers, for samples,
and for as many samples as a feature has to keep. -/
def Allows (r : Registry α) (width : Nat) (allowed : Nat → Prop) : Prop :=
  (allowed 1 ∧ allowed width) ∧
    ∀ f ∈ r.features, ∀ w ∈ f.stage.window?, allowed (width * w.size) ∧
    allowed (width * (w.size + 1))

/-- No feature has seen a sample. -/
def Fresh (r : Registry α) : Prop :=
  ∀ (i : Nat) (e : Entry α), r.entries[i]? = some e → e.feature.Fresh i ∧ e.value = []

variable {r r' : Registry α} {f : Feature α} {index : Nat}

theorem Fresh.feature (hr : r.Fresh) (hf : r.features[index]? = some f) : f.Fresh index := by
  rw [features, List.getElem?_map, Option.map_eq_some_iff] at hf
  obtain ⟨e, he, rfl⟩ := hf
  exact (hr index e (by simpa using he)).1

@[simp] theorem isTaken_eq_false_iff {id : String} :
    r.isTaken id = false ↔ ∀ g ∈ r.features, g.id ≠ id := by
  rw [isTaken, indexOf?, Option.isSome_eq_false_iff, Option.isNone_iff_eq_none,
    Array.findIdx?_eq_none_iff, features]
  simp

@[simp] theorem insert_eq_ok_iff :
    r.insert f = .ok (index, r') ↔ (f.id ≠ "" ∧ ∀ g ∈ r.features, g.id ≠ f.id) ∧
    (∀ s ∈ f.source?, s < r.size) ∧ index = r.size ∧ r' = ⟨r.entries.push ⟨f, []⟩⟩ := by
  have hsource : f.source?.filter (r.size ≤ ·) = none ↔ ∀ s ∈ f.source?, s < r.size := by
    simp [Option.filter_eq_none_iff]
  rw [← isTaken_eq_false_iff, ← hsource, insert]
  split
  · rename_i hrefused
    constructor
    · nofun
    · rintro ⟨⟨hid, htaken⟩, -⟩
      simp [hid, htaken] at hrefused
  · rename_i hid
    obtain ⟨hid, htaken⟩ := not_or.mp hid
    rw [Bool.not_eq_true] at htaken
    cases f.source?.filter (r.size ≤ ·) <;> simp [hid, htaken, eq_comm]

theorem Built.push_input (hr : r.Built) (id : String) (dimension : Nat)
    (hid : id ≠ "" ∧ ∀ g ∈ r.features, g.id ≠ id) :
    Built ⟨r.entries.push ⟨.ofInput id dimension, []⟩⟩ :=
  .input id dimension hr (insert_eq_ok_iff.mpr
    ⟨hid, by simp [Feature.source?, Feature.Stage.window?, Feature.ofInput],
    rfl, rfl⟩)

theorem Built.push_windowed (hr : r.Built) (id : String) (statistic : Feature.Statistic)
    (source size : Nat) (hid : id ≠ "" ∧ ∀ g ∈ r.features, g.id ≠ id) (hsource : source < r.size)
    (hsize : 0 < size) :
    Built ⟨r.entries.push
      ⟨⟨id, .ofWindow ⟨source, size, ⟨Array.replicate size [], 0, 0, none, 0⟩⟩ statistic⟩,
        []⟩⟩ := by
  refine .windowed id statistic source size ?_ hr (insert_eq_ok_iff.mpr ⟨hid, ?_, rfl, rfl⟩)
  · simp only [Feature.ofWindow, Feature.Window.ofSize, History.ofCapacity,
      if_neg (Nat.ne_of_gt hsize)]
    rfl
  · intro s hs
    cases statistic <;> cases hs <;> exact hsource

def chained : Registry α := ⟨#[
  ⟨.ofInput "x" 2, []⟩,
  ⟨⟨"a", .mean ⟨0, 2, ⟨#[[], []], 0, 0, none, 0⟩⟩⟩, []⟩,
  ⟨⟨"b", .incrementalMean ⟨1, 1, ⟨#[[]], 0, 0, none, 0⟩⟩ []⟩, []⟩,
  ⟨⟨"c", .variance ⟨2, 3, ⟨#[[], [], []], 0, 0, none, 0⟩⟩⟩, []⟩,
  ⟨⟨"d", .incrementalVariance ⟨3, 2, ⟨#[[], []], 0, 0, none, 0⟩⟩ [] []⟩, []⟩]⟩

theorem built_chained : (chained : Registry α).Built := by
  have hx := (Built.empty (α := α)).push_input "x" 2 (by simp [features, Registry.empty])
  have ha := hx.push_windowed "a" .mean 0 2
    (by simp [features, Feature.ofInput, Registry.empty]) (by simp [size]) (by decide)
  have hb := ha.push_windowed "b" .incrementalMean 1 1
    (by simp [features, Feature.ofInput, Registry.empty]) (by simp [size, Registry.empty])
    (by decide)
  have hc := hb.push_windowed "c" .variance 2 3
    (by simp [features, Feature.ofInput, Registry.empty]) (by simp [size, Registry.empty])
    (by decide)
  exact hc.push_windowed "d" .incrementalVariance 3 2
    (by simp [features, Feature.ofInput, Registry.empty]) (by simp [size, Registry.empty])
    (by decide)

theorem describe_eq_ok {fields : List String} (h : r.describe fields = .ok f) :
    (∃ id dimension, f = .ofInput id dimension) ∨
      ∃ id statistic source size, Feature.ofWindow id statistic source size = .ok f := by
  unfold describe at h
  split at h
  · cases h
  · split at h
    · cases h
    · obtain ⟨dimension, -, h⟩ := ok_of_bind h
      cases h
      exact .inl ⟨_, _, rfl⟩
    · obtain ⟨source, -, h⟩ := ok_of_bind h
      obtain ⟨window, -, h⟩ := ok_of_bind h
      exact .inr ⟨_, _, _, _, h⟩
    · cases h

theorem Fresh.insert (hr : r.Fresh) (hf : (∀ s ∈ f.source?, s < r.size) → f.Fresh r.size)
    (h : r.insert f = .ok (index, r')) : r'.Fresh := by
  obtain ⟨-, hsource, -, rfl⟩ := insert_eq_ok_iff.mp h
  intro i e he
  rcases getElem?_push_eq_some_iff.mp he with ⟨rfl, rfl⟩ | ⟨-, he⟩
  · exact ⟨hf hsource, rfl⟩
  · exact hr i e he

theorem Built.fresh (h : r.Built) : r.Fresh := by
  induction h with
  | empty => exact fun i e he => by simp [Registry.empty] at he
  | input id dimension _ h ih => exact ih.insert (fun _ => .input id dimension) h
  | windowed id statistic source size hf _ h ih => exact ih.insert (Feature.fresh_ofWindow hf) h
  | described fields _ h ih =>
    obtain ⟨f, hf, h⟩ := ok_of_bind h
    refine ih.insert (fun hsource => ?_) h
    rcases describe_eq_ok hf with ⟨id, dimension, rfl⟩ | ⟨id, statistic, source, size, hf⟩
    · exact .input id dimension
    · exact Feature.fresh_ofWindow hf hsource

end Registry

variable [Scalar α]

theorem Feature.Fresh.source_lt {f : Feature α} {index : Nat} (h : f.Fresh index) :
    ∀ s ∈ f.source?, s < index := by
  cases h with
  | input id dimension => simp [source?, Stage.window?]
  | windowed id statistic w hw hlt =>
    intro s hs
    exact Option.some.inj ((Stage.holds_ofWindow hw statistic).source_eq.symm.trans hs) ▸ hlt

namespace Circuit

/-- The bus of a feature: an input has a cell of its own, any other bus carries the statistic of the
source. -/
inductive Serves (c : Circuit α) (buses : Array Bus) : Feature α → Bus → Prop where
  | input (id : String) {cell dimension : Nat} : c.cells[cell]? = some (.input dimension) →
      Serves c buses ⟨id, .input dimension⟩ (Bus.range cell 0 dimension)
  | windowed (id : String) {statistic : Feature.Statistic} {w : Feature.Window α}
      {source bus : Bus} : w.Holds w.source w.size [] → buses[w.source]? = some source →
        c.Carries source ⟨bus, statistic.wired w.size, true⟩ →
          Serves c buses ⟨id, .ofWindow w statistic⟩ bus

variable {c d : Circuit α} {buses buses' : Array Bus} {takes allowed : Nat → Prop} {width : Nat}
    {f : Feature α} {bus : Bus}

theorem Serves.mono (h : c.Serves buses f bus) (hd : d.Extends c)
    (hbuses : ∀ (i : Nat) (b : Bus), buses[i]? = some b → buses'[i]? = some b) :
    d.Serves buses' f bus := by
  cases h with
  | input id hcell => exact .input id (hd _ _ hcell)
  | windowed id hw hsource hcarries => exact .windowed id hw (hbuses _ _ hsource) (hcarries.mono hd)

theorem Serves.of_input {id : String} {dimension : Nat}
    (h : c.Serves buses (.ofInput id dimension) bus) :
    ∃ cell, c.cells[cell]? = some (.input dimension) ∧ bus = Bus.range cell 0 dimension := by
  generalize hf : (.ofInput id dimension : Feature α) = f at h
  cases h with
  | input id' hcell =>
    cases hf
    exact ⟨_, hcell, rfl⟩
  | @windowed _ statistic => cases statistic <;> cases hf

theorem Serves.of_windowed {id : String} {statistic : Feature.Statistic} {w : Feature.Window α}
    (h : c.Serves buses ⟨id, .ofWindow w statistic⟩ bus) :
    ∃ source, buses[w.source]? = some source ∧
    c.Carries source ⟨bus, statistic.wired w.size, true⟩ := by
  generalize hf : (⟨id, .ofWindow w statistic⟩ : Feature α) = f at h
  cases h with
  | input => cases statistic <;> cases hf
  | @windowed _ statistic' w' source _ hw hsource hcarries =>
    have hsame : w' = w ∧ statistic' = statistic := by
      cases statistic <;> cases statistic' <;> cases hf <;> exact ⟨rfl, rfl⟩
    obtain ⟨rfl, rfl⟩ := hsame
    exact ⟨source, hsource, hcarries⟩

/-- The buses of features, in a circuit that is ready for more of them. -/
structure Hosts (c : Circuit α) (takes allowed : Nat → Prop) (buses : Array Bus)
    (features : List (Feature α)) :
    Prop where
  wirable : c.Wirable takes allowed
  size_eq : buses.size = features.length
  serves : ∀ (i : Nat) (f : Feature α) (bus : Bus), features[i]? = some f → buses[i]? = some bus →
    c.Serves buses f bus
  takes_length : ∀ bus ∈ buses, takes bus.length
  varies : ∀ bus ∈ buses, ∀ p ∈ bus, c.Varies p

@[simp] theorem hosts_empty : (empty : Circuit α).Hosts takes allowed #[] [] := by
  refine ⟨wirable_empty, rfl, ?_, ?_, ?_⟩ <;> simp

theorem Hosts.push {features : List (Feature α)} (h : c.Hosts takes allowed buses features)
    (hd : d.Wirable takes allowed) (he : d.Extends c) (hf : d.Serves buses f bus)
    (hlen : takes bus.length) (hvaries : ∀ p ∈ bus, d.Varies p) :
    d.Hosts takes allowed (buses.push bus) (features ++ [f]) := by
  have hpush : ∀ (i : Nat) (b : Bus), buses[i]? = some b → (buses.push bus)[i]? = some b :=
      fun i b hb => by
    obtain ⟨hi, rfl⟩ := Array.getElem?_eq_some_iff.mp hb
    rw [Array.getElem?_push_lt hi]
  refine ⟨hd, by simp [h.size_eq], fun i g b hg hb => ?_, fun b hb => ?_, fun b hb => ?_⟩
  · rcases Nat.lt_trichotomy i features.length with hi | rfl | hi
    · rw [List.getElem?_append_left hi] at hg
      rw [Array.getElem?_push_lt (h.size_eq ▸ hi), ← Array.getElem?_eq_getElem] at hb
      exact (h.serves i g b hg hb).mono he hpush
    · rw [← h.size_eq, Array.getElem?_push_size] at hb
      simp only [List.getElem?_concat_length, Option.some.injEq] at hg hb
      exact hg ▸ hb ▸ hf.mono (.refl d) hpush
    · rw [List.getElem?_eq_none (by simp; omega)] at hg
      cases hg
  all_goals rcases Array.mem_push.mp hb with hb | rfl
  · exact h.takes_length b hb
  · exact hlen
  · exact fun p hp => he.varies (h.varies b hb p hp)
  · exact hvaries

theorem Hosts.inputSize?_eq {features : List (Feature α)}
    (h : c.Hosts (· = width) allowed buses features) (hf : f.Fresh 0)
    (hfirst : features[0]? = some f) : c.inputSize? = some width := by
  obtain ⟨bus, hbus⟩ : ∃ bus, buses[0]? = some bus :=
    ⟨_, Array.getElem?_eq_getElem (h.size_eq ▸ (List.getElem?_eq_some_iff.mp hfirst).1)⟩
  cases hf with
  | windowed id statistic w hw hsource => exact absurd hsource (Nat.not_lt_zero _)
  | input id dimension =>
    obtain ⟨cell, hcell, -⟩ := (h.serves 0 _ bus hfirst hbus).of_input
    obtain ⟨k, hk⟩ := exists_inputSize?_iff.mpr ⟨_, Array.mem_of_getElem? hcell⟩
    rw [hk, h.wirable.inputs _ (input_mem hk) k rfl]

theorem Wirable.checkSample_eq_ok_iff (h : c.Wirable (· = width) allowed)
    (hinput : c.inputSize? = some width) {sample : List α} :
    Simulator.checkSample c sample = .ok () ↔ sample.length = width := by
  rw [Simulator.checkSample_eq_ok_iff, hinput]
  obtain ⟨cell, hmem, hsize⟩ := Array.exists_of_findSome?_eq_some hinput
  constructor
  · rintro ⟨-, hinputs⟩
    exact (hinputs cell (by simpa using hmem) width hsize).symm
  · rintro rfl
    exact ⟨by simp, fun cell hcell n hn => h.inputs cell (by simpa using hcell) n hn⟩

end Circuit

namespace Registry

open Circuit

variable {c : Circuit α} {takes allowed : Nat → Prop} {width : Nat} {buses : Array Bus}
    {features : List (Feature α)} {f : Feature α}

/-- What a feature needs in order to be wired behind others: an input is of a width that is taken,
and what any other feature has to keep is of a size allowed, whatever the width of its source. -/
structure Fits (takes allowed : Nat → Prop) (index : Nat) (f : Feature α) : Prop where
  fresh : f.Fresh index
  dimension : ∀ n, f.stage = .input n → takes n
  allows : ∀ w ∈ f.stage.window?, ∀ n, takes n → allowed (n * w.size) ∧ allowed (n * (w.size + 1))

structure Widths (takes allowed : Nat → Prop) : Prop where
  pos : ∀ n, takes n → 0 < n
  one : allowed 1
  allows : ∀ n, takes n → allowed n

theorem wire_feature_succeeds (hc : c.Hosts takes allowed buses features)
    (hwidths : Widths takes allowed) (hf : Fits takes allowed features.length f)
    {Q : Bus → Circuit α → Prop}
    (h : ∀ bus d, d.Hosts takes allowed (buses.push bus) (features ++ [f]) → d.Extends c →
      Q bus d) :
    (f.wire (buses[·]?)).Succeeds c Q := by
  obtain ⟨hfresh, hdimension, hwindow⟩ := hf
  cases hfresh with
  | input id dimension =>
    have htakes := hdimension dimension rfl
    refine Assembly.place_succeeds hc.wirable ⟨htakes, hwidths.pos _ htakes⟩
      (hwidths.allows _ htakes) fun d hd he hcell => ?_
    refine h _ d (hc.push hd he (.input id hcell) (by rwa [Cell.size, Bus.length_range]) fun p hp =>
      ?_) he
    obtain ⟨i, hi, rfl⟩ := Bus.mem_range.mp hp
    exact ⟨_, hcell, by rwa [Nat.zero_add], by simp⟩
  | windowed id statistic w hw hsource =>
    have hlt : w.source < buses.size := hc.size_eq ▸ hsource
    have hmem : buses[w.source] ∈ buses := Array.getElem_mem hlt
    have htakes := hc.takes_length _ hmem
    have hbus : buses[w.source]? = some buses[w.source] := Array.getElem?_eq_getElem hlt
    have hne : buses[w.source] ≠ [] := List.ne_nil_of_length_pos (hwidths.pos _ htakes)
    refine Feature.wire_succeeds rfl hw.size_pos (hwindow w (by cases statistic <;> rfl) _ htakes)
      hbus (bench_start hc.wirable hne ⟨hwidths.one, hwidths.allows _ htakes⟩ (hc.varies _ hmem))
      fun bus d hd => ?_
    have hcarries := hd.carries _ List.mem_cons_self
    exact h bus d (hc.push hd.wirable hd.grown (.windowed id hw hbus hcarries)
      (show takes bus.length from hcarries.length_eq.symm ▸ htakes) (hcarries.varies rfl)) hd.grown

/-- Fresh features are wired, one after another, each of them to a bus before; what was there
stays. -/
theorem wireAll_succeeds (hc : c.Hosts takes allowed buses features)
    (hwidths : Widths takes allowed) (rest : List (Feature α))
    (hrest : ∀ (i : Nat) (f : Feature α), rest[i]? = some f →
      Fits takes allowed (features.length + i) f) :
    (wireAll buses rest).Succeeds c fun buses' d =>
      d.Hosts takes allowed buses' (features ++ rest) ∧ d.Extends c ∧
      buses.toList <+: buses'.toList := by
  induction rest generalizing c buses features with
  | nil => exact succeeds_pure ⟨by rwa [List.append_nil], .refl c, List.prefix_refl _⟩
  | cons f rest ih =>
    refine .bind (wire_feature_succeeds hc hwidths (hrest 0 f rfl) fun bus d hd he => ?_)
    have hmore := ih hd fun i g hg => by
      have hindex : (features ++ [f]).length + i = features.length + (i + 1) := by simp; omega
      exact hindex ▸ hrest (i + 1) g hg
    refine hmore.imp fun buses' d' ⟨hd', he', hprefix⟩ => ⟨by simpa using hd', he'.trans he, ?_⟩
    rw [Array.toList_push] at hprefix
    exact (List.prefix_append _ _).trans hprefix

omit [Scalar α] in
theorem getElem?_features {r : Registry α} {i : Nat} {e : Entry α} (he : r.entries[i]? = some e) :
    r.features[i]? = some e.feature := by
  rw [features, List.getElem?_map, Array.getElem?_toList, he, Option.map_some]

omit [Scalar α] in
@[simp] theorem length_features (r : Registry α) : r.features.length = r.size := by
  rw [features, List.length_map, Array.length_toList, size]

theorem wire_of_run {r : Registry α} (hne : r.entries ≠ #[])
    (h : (wireAll #[] r.features).run .empty = (.ok buses, c)) :
    r.wire = .ok ⟨c, buses⟩ := by
  rw [Registry.wire, if_neg (by simpa using hne), h]
  rfl

/-- A registry of fresh features has a circuit, which takes samples of the one width. -/
theorem Fresh.wire {r : Registry α} (hr : r.Fresh) (hne : r.entries ≠ #[]) (hwidth : 0 < width)
    (hdimensions : r.TakesWidth width) (hallows : r.Allows width allowed) :
    ∃ w : Wired α, r.wire = .ok w ∧ w.circuit.Hosts (· = width) allowed w.buses r.features ∧
      w.circuit.inputSize? = some width ∧ w.output ∈ w.buses := by
  have hfits : ∀ (i : Nat) (f : Feature α), r.features[i]? = some f →
      Fits (· = width) allowed (([] : List (Feature α)).length + i) f := by
    intro i f hf
    have hmem := List.mem_of_getElem? hf
    refine ⟨?_, hdimensions f hmem, fun w hw n hn => hn ▸ hallows.2 f hmem w hw⟩
    rw [List.length_nil, Nat.zero_add]
    exact hr.feature hf
  have hwidths : Widths (· = width) allowed :=
    ⟨fun n hn => hn ▸ hwidth, hallows.1.1, fun n hn => hn ▸ hallows.1.2⟩
  obtain ⟨buses, d, hrun, hd, -, -⟩ := wireAll_succeeds hosts_empty hwidths _ hfits
  have hpos : 0 < r.entries.size := Array.size_pos_iff.mpr hne
  have hfirst : r.entries[0]? = some r.entries[0] := Array.getElem?_eq_getElem hpos
  have hbuses : 0 < buses.size := by
    rw [hd.size_eq, List.nil_append, length_features]
    exact hpos
  refine ⟨⟨d, buses⟩, wire_of_run hne hrun, hd, hd.inputSize?_eq (hr 0 _ hfirst).1
    (getElem?_features hfirst), ?_⟩
  have hlast : buses.size - 1 < buses.size := Nat.sub_lt hbuses Nat.one_pos
  rw [Wired.output, Array.back?, Array.getElem?_eq_getElem hlast, Option.getD_some]
  exact Array.getElem_mem hlast

/-- Whatever the sizes, declared features have a circuit, and samples are taken that are of the one
width. -/
theorem Built.wire {r : Registry α} (hr : r.Built) (hne : r.entries ≠ #[]) (hwidth : 0 < width)
    (hdimensions : r.TakesWidth width) :
    ∃ w : Wired α, r.wire = .ok w ∧ w.circuit.Hosts (· = width) (fun _ => True) w.buses r.features ∧
      ∀ sample : List α, Simulator.checkSample w.circuit sample = .ok () ↔
      sample.length = width := by
  obtain ⟨w, hwire, hosts, hinput, -⟩ := hr.fresh.wire hne hwidth hdimensions
    (show r.Allows width fun _ => True by simp [Allows])
  exact ⟨w, hwire, hosts, fun _ => hosts.wirable.checkSample_eq_ok_iff hinput⟩

end Registry
end StreamStats
