import StreamStats.Proofs.Agreement
import StreamStats.Proofs.Declared

/-! Features added to a registry leave those before them as they are. Whatever goes through the
features, or through the cells of their circuit, goes from the front to the back, and what stands in
front never looks behind; so what has come of it there does not depend on what follows, not even
where what follows fails. -/

namespace StreamStats

open ExceptT

variable {α : Type} [Scalar α]

omit [Scalar α] in
theorem Circuit.Extends.cells_prefix {c d : Circuit α} (h : d.Extends c) :
    c.cells.toList <+: d.cells.toList := by
  refine List.prefix_iff_getElem?.mpr fun id hid => ?_
  rw [Array.getElem?_toList]
  exact h id _ (by rw [Array.getElem_toList, Array.getElem?_eq_getElem])

namespace Simulator

variable {sample : List α} {settled : Levels α} {c c' : Circuit α} {s s' t t' : Simulator α}

@[simp] theorem settleAll_append {cells more : List (Cell α)} {lasts rest : List (Array α)}
    (h : cells.length = lasts.length) :
    settleAll sample settled (cells ++ more) (lasts ++ rest) =
      settleAll sample (settleAll sample settled cells lasts) more rest := by
  induction cells generalizing settled lasts with
  | nil =>
    obtain rfl := List.length_eq_zero_iff.mp h.symm
    rfl
  | cons cell cells ih =>
    cases lasts with
    | nil => cases h
    | cons last lasts => exact ih (Nat.succ.inj h)

@[simp] theorem settled_prefix_settleAll (sample : List α) (settled : Levels α)
    (cells : List (Cell α)) (lasts : List (Array α)) :
    settled.toList <+: (settleAll sample settled cells lasts).toList := by
  induction cells generalizing settled lasts with
  | nil => exact List.prefix_refl _
  | cons cell cells ih =>
    cases lasts with
    | nil => exact List.prefix_refl _
    | cons last lasts =>
      have hpush := ih (settled.push (cell.settle settled sample last)) lasts
      rw [Array.toList_push] at hpush
      exact (List.prefix_append _ _).trans hpush

/-- A simulator of the one circuit and one of the other, at the same levels as far as the one
circuit goes. -/
structure Begins (c c' : Circuit α) (s s' : Simulator α) : Prop where
  circuit_eq : s.circuit = c
  circuit_eq' : s'.circuit = c'
  size_eq : s.levels.size = c.cells.size
  levels : s.levels.toList <+: s'.levels.toList

theorem begins_ofCircuit (hc : c.cells.toList <+: c'.cells.toList) :
    Begins c c' (ofCircuit c) (ofCircuit c') := by
  refine ⟨rfl, rfl, by simp [ofCircuit], ?_⟩
  simp only [ofCircuit, Array.toList_map]
  exact hc.map _

namespace Begins

theorem step (h : Begins c c' s s') (hc : c.cells.toList <+: c'.cells.toList)
    (hs : s.step sample = .ok t) (hs' : s'.step sample = .ok t') : Begins c c' t t' := by
  obtain ⟨-, -, hs⟩ := ok_of_bind hs
  obtain ⟨-, -, hs'⟩ := ok_of_bind hs'
  cases hs
  cases hs'
  obtain ⟨rfl, rfl, hsize, hlevels⟩ := h
  have hlen : s.circuit.cells.toList.length = s.levels.toList.length := by simp [hsize]
  refine ⟨rfl, rfl, by simp [size_settleAll hlen], ?_⟩
  obtain ⟨more, hmore⟩ := hc
  obtain ⟨rest, hrest⟩ := hlevels
  simp only [← hmore, ← hrest, settleAll_append hlen]
  exact settled_prefix_settleAll _ _ _ _

theorem stepEach {samples : List (List α)} (h : Begins c c' s s')
    (hc : c.cells.toList <+: c'.cells.toList) (hs : s.stepEach samples = .ok t)
    (hs' : s'.stepEach samples = .ok t') : Begins c c' t t' := by
  induction samples generalizing s s' with
  | nil =>
    cases hs
    cases hs'
    exact h
  | cons sample samples ih =>
    rw [Simulator.stepEach, List.foldlM_cons] at hs hs'
    obtain ⟨u, hu, hs⟩ := ok_of_bind hs
    obtain ⟨u', hu', hs'⟩ := ok_of_bind hs'
    exact ih (h.step hc hu hu') hs hs'

/-- A bus of the cells in front carries the same. -/
theorem read_eq (h : Begins c c' s s') {bus : Bus} (hbus : ∀ p ∈ bus, c.Has p) :
    s.read bus = s'.read bus := by
  refine List.map_congr_left fun p hp => ?_
  obtain ⟨cell, hcell, -⟩ := hbus p hp
  have hlt : p.cell < s.levels.size := h.size_eq ▸ (Array.getElem?_eq_some_iff.mp hcell).1
  have hsame := List.prefix_iff_getElem?.mp h.levels p.cell (by simpa using hlt)
  rw [Array.getElem?_toList, Array.getElem_toList] at hsame
  rw [Levels.readPin, Levels.readPin, hsame, Array.getElem?_eq_getElem hlt]

end Begins
end Simulator

namespace Registry

variable {r r' : Registry α} {sample : List α}

@[simp] theorem feedAll_append (sample : List α) (fed : Array (Entry α))
    (first rest : List (Entry α)) :
    feedAll sample fed (first ++ rest) =
      match feedAll sample fed first with
      | (.ok (), fed) => feedAll sample fed rest
      | (.error e, fed) => (.error e, fed ++ rest.toArray) := by
  induction first generalizing fed with
  | nil => rfl
  | cons entry first ih =>
    simp only [List.cons_append, feedAll]
    cases entry.feature.feed (inputs fed sample entry.feature) with
    | ok fed' => exact ih _
    | error e => simp

@[simp] theorem fed_prefix_feedAll (fed : Array (Entry α)) (rest : List (Entry α)) :
    fed.toList <+: (feedAll sample fed rest).2.toList := by
  induction rest generalizing fed with
  | nil => exact List.prefix_refl _
  | cons entry rest ih =>
    simp only [feedAll]
    cases entry.feature.feed (inputs fed sample entry.feature) with
    | ok fed' =>
      have hpush := ih (fed.push ⟨fed'.2, fed'.1⟩)
      rw [Array.toList_push] at hpush
      exact (List.prefix_append _ _).trans hpush
    | error e => simp

/-- What has come of the entries in front, whether all of them took the sample or not. -/
theorem feedAll_prefix_feedAll_append (fed : Array (Entry α)) (first rest : List (Entry α)) :
    (feedAll sample fed first).2.toList <+: (feedAll sample fed (first ++ rest)).2.toList := by
  rw [feedAll_append]
  generalize feedAll sample fed first = result
  obtain ⟨_ | _, fed'⟩ := result
  · simp
  · exact fed_prefix_feedAll fed' rest

/-- The entries of the one registry are the first of the other, in the same states and with the same
values. -/
def Begins (r r' : Registry α) : Prop := r.entries.toList <+: r'.entries.toList

theorem Begins.feed (h : r.Begins r') (sample : List α) :
    (r.feed sample).2.Begins (r'.feed sample).2 := by
  unfold Registry.feed
  split
  · rename_i hempty
    rw [Begins, Array.isEmpty_iff.mp hempty]
    exact List.nil_prefix
  · rename_i hne
    obtain ⟨more, hmore⟩ := h
    have hne' : ¬r'.entries.isEmpty = true := fun hempty => hne (by simp_all)
    rw [if_neg hne', ← hmore]
    exact feedAll_prefix_feedAll_append #[] _ more

def feedAny (r : Registry α) (samples : List (List α)) : Registry α :=
  samples.foldl (fun r sample => (r.feed sample).2) r

theorem Begins.feedAny (h : r.Begins r') (samples : List (List α)) :
    (r.feedAny samples).Begins (r'.feedAny samples) := by
  induction samples generalizing r r' with
  | nil => exact h
  | cons sample samples ih => exact ih (h.feed sample)

@[simp] theorem size_feedAny (r : Registry α) (samples : List (List α)) :
    (r.feedAny samples).size = r.size := by
  induction samples generalizing r with
  | nil => rfl
  | cons sample samples ih =>
    have hfeed := congrArg List.length (declarations_feed r sample)
    rw [length_declarations, length_declarations] at hfeed
    exact (ih (r.feed sample).2).trans hfeed

@[simp] theorem wireAll_append (buses : Array Bus) (first rest : List (Feature α)) :
    wireAll buses (first ++ rest) = wireAll buses first >>= (wireAll · rest) := by
  induction first generalizing buses with
  | nil => exact (pure_bind _ _).symm
  | cons f first ih => simp only [List.cons_append, wireAll, ih, bind_assoc]

/-- A registry as descriptions leave it: its features have seen no sample, and inputs are of a
positive width. -/
structure Described (r : Registry α) : Prop where
  reachable : r.Reachable
  built : r.Built
  positive : ∀ f ∈ r.features, ∀ n, f.stage = .input n → 0 < n

@[simp] theorem described_empty : (empty : Registry α).Described :=
  ⟨.empty, .empty, by simp [features, Registry.empty]⟩

theorem Described.declare {fields : List String} {index : Nat} (hr : r.Described)
    (h : r.declare fields = .ok (index, r')) :
    r'.Described ∧ r.Begins r' ∧ r'.size = r.size + 1 := by
  obtain ⟨f, hf, -, rfl⟩ := (declare_eq_ok_iff hr.reachable.consistent).mp h
  refine ⟨⟨.declare hr.reachable h, .described fields hr.built h, fun g hg n hn => ?_⟩, ?_,
    by simp [size]⟩
  · rw [features_push] at hg
    rcases List.mem_append.mp hg with hg | hg
    · exact hr.positive g hg n hn
    · obtain rfl := List.mem_singleton.mp hg
      cases hf with
      | input _ hnumeral => exact Feature.Stage.input.inj hn ▸ hnumeral.2
      | @windowed _ _ _ statistic => cases statistic <;> cases hn
  · rw [Begins, Array.toList_push]
    exact List.prefix_append _ _

theorem Described.declareAll {descriptions : List (List String)} (hr : r.Described)
    (h : descriptions.foldlM (fun r fields => return (← r.declare fields).2) r = .ok r') :
    r'.Described ∧ r.Begins r' ∧ r'.size = r.size + descriptions.length := by
  induction descriptions generalizing r with
  | nil =>
    cases h
    exact ⟨hr, List.prefix_refl _, rfl⟩
  | cons fields descriptions ih =>
    rw [List.foldlM_cons] at h
    obtain ⟨r₁, hr₁, h⟩ := ok_of_bind h
    obtain ⟨declared, hdeclared, hr₁⟩ := ok_of_bind hr₁
    cases hr₁
    obtain ⟨hdescribed, hbegins, hsize⟩ := hr.declare hdeclared
    obtain ⟨hr', hbegins', hsize'⟩ := ih hdescribed h
    exact ⟨hr', hbegins.trans hbegins', by rw [hsize', hsize, List.length_cons]; omega⟩

/-- Widths need not agree for a circuit to be made: samples are taken or refused as a whole. -/
theorem Described.fits (hr : r.Described) {i : Nat} {f : Feature α} (hf : r.features[i]? = some f) :
    Fits (0 < ·) (fun _ => True) i f :=
  ⟨hr.built.fresh.feature hf, hr.positive f (List.mem_of_getElem? hf), fun _ _ _ _ =>
    ⟨trivial, trivial⟩⟩

omit [Scalar α] in
theorem Begins.features_prefix (h : r.Begins r') : r.features <+: r'.features := h.map _

/-- The circuit of features in front is the front of the circuit of them all, and has the same
buses. -/
theorem Described.wires (hr : r.Described) (hr' : r'.Described) (h : r.Begins r')
    (hne : r.entries ≠ #[]) :
    ∃ w w' : Wired α, r.wire = .ok w ∧ r'.wire = .ok w' ∧
    w.circuit.cells.toList <+: w'.circuit.cells.toList ∧
      w.buses.size = r.size ∧ w.buses.toList <+: w'.buses.toList ∧ ∀ bus ∈ w.buses, ∀ p ∈ bus,
      w.circuit.Has p := by
  have hwidths : Widths (0 < ·) fun _ => True := ⟨fun _ hn => hn, trivial, fun _ _ => trivial⟩
  obtain ⟨more, hmore⟩ := h.features_prefix
  obtain ⟨buses, c, hrun, hosts, -, -⟩ := wireAll_succeeds Circuit.hosts_empty hwidths r.features
    fun i f hf => by simpa using hr.fits hf
  rw [List.nil_append] at hosts
  obtain ⟨buses', c', hrun', -, hextends, hbuses⟩ :=
    wireAll_succeeds hosts hwidths more fun i f hf =>
    hr'.fits (by
      rw [← hmore, List.getElem?_append_right (Nat.le_add_right _ _), Nat.add_sub_cancel_left, hf])
  have hrunAll : (wireAll #[] r'.features).run .empty = (.ok buses', c') := by
    rw [← hmore, wireAll_append, run_bind_of_ok hrun]
    exact hrun'
  have hne' : r'.entries ≠ #[] := fun hempty => hne (by simpa [Begins, hempty] using h)
  refine ⟨⟨c, buses⟩, ⟨c', buses'⟩, wire_of_run hne hrun, wire_of_run hne' hrunAll,
    hextends.cells_prefix, ?_, hbuses, fun bus hbus p hp => (hosts.varies bus hbus p hp).has⟩
  rw [hosts.size_eq, length_features]

/-- Descriptions added to others leave alone what those describe. The circuit begins with the same
cells, and the features have the same buses, on which simulators show the same in every step; and
under whatever samples, refused or not, the features come to the same states and values. -/
theorem ofDescriptions_append_undisturbed {descriptions more : List (List String)}
    (hne : descriptions ≠ []) (hr : ofDescriptions descriptions = .ok r)
    (hr' : ofDescriptions (descriptions ++ more) = .ok r') :
    (∃ w w' : Wired α, r.wire = .ok w ∧ r'.wire = .ok w' ∧
      w.circuit.cells.toList <+: w'.circuit.cells.toList ∧ w.buses.size = r.size ∧
      w.buses.toList <+: w'.buses.toList ∧
      ∀ samples s s', (Simulator.ofCircuit w.circuit).stepEach samples = .ok s →
        (Simulator.ofCircuit w'.circuit).stepEach samples = .ok s' →
        ∀ bus ∈ w.buses, s.read bus = s'.read bus) ∧
    ∀ samples, (r.feedAny samples).size = r.size ∧
      (r.feedAny samples).Begins (r'.feedAny samples) := by
  rw [ofDescriptions, List.foldlM_append] at hr'
  obtain ⟨r₁, hr₁, hr'⟩ := ok_of_bind hr'
  obtain rfl := Except.ok.inj (hr.symm.trans hr₁)
  obtain ⟨hdescribed, -, hcount⟩ := described_empty.declareAll hr
  obtain ⟨hdescribed', hbegins, -⟩ := hdescribed.declareAll hr'
  have hentries : r.entries ≠ #[] := by
    intro hempty
    rw [size, hempty] at hcount
    exact hne (List.length_eq_zero_iff.mp (by simpa [size, Registry.empty] using hcount.symm))
  obtain ⟨w, w', hw, hw', hcells, hsize, hbuses, hhas⟩ :=
    hdescribed.wires hdescribed' hbegins hentries
  refine ⟨⟨w, w', hw, hw', hcells, hsize, hbuses, fun samples s s' hs hs' bus hbus => ?_⟩,
    fun samples =>
    ⟨size_feedAny r samples, hbegins.feedAny samples⟩⟩
  exact ((Simulator.begins_ofCircuit hcells).stepEach hcells hs hs').read_eq (hhas bus hbus)

def averaged : Registry Float :=
  ⟨#[⟨.ofInput "x" 2, []⟩, ⟨⟨"m", .ofWindow (.blank 0 2) .mean⟩, []⟩]⟩

/-- An input of another width and a variance of the mean behind it. -/
def alongside : Registry Float :=
  ⟨averaged.entries ++ #[⟨.ofInput "y" 1, []⟩, ⟨⟨"v", .ofWindow (.blank 1 3) .variance⟩, []⟩]⟩

/-- The sample that the input behind refuses has gone into the mean all the same. -/
theorem ofDescriptions_append_undisturbed_alongside :
    ofDescriptions [["x", "input", "2"], ["m", "mean", "x", "2"]] = .ok averaged ∧
    ofDescriptions ([["x", "input", "2"], ["m", "mean", "x", "2"]] ++
      [["y", "input", "1"], ["v", "variance", "m", " 3"]]) = .ok alongside ∧
    (averaged.feed [1, 2]).1 = .ok [0.5, 1] ∧
    (alongside.feed [1, 2]).1 = .error (.sampleWidth "y" 1 2) ∧
    (∃ w w', averaged.wire = .ok w ∧ alongside.wire = .ok w' ∧
      w.circuit.cells.toList <+: w'.circuit.cells.toList) ∧
    (averaged.feedAny [[1, 2]]).Begins (alongside.feedAny [[1, 2]]) ∧
    (alongside.feedAny [[1, 2]]).value? 1 = some [0.5, 1] := by
  have hr : ofDescriptions [["x", "input", "2"], ["m", "mean", "x", "2"]] = .ok averaged := by
    with_unfolding_all rfl
  have hr' : ofDescriptions ([["x", "input", "2"], ["m", "mean", "x", "2"]] ++
    [["y", "input", "1"], ["v", "variance", "m", " 3"]]) = .ok alongside :=
    by with_unfolding_all rfl
  obtain ⟨⟨w, w', hw, hw', hcells, -⟩, hfed⟩ := ofDescriptions_append_undisturbed (by simp) hr hr'
  exact ⟨hr, hr', rfl, rfl, ⟨w, w', hw, hw', hcells⟩, (hfed [[1, 2]]).2, rfl⟩

end Registry
end StreamStats
