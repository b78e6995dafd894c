import StreamStats.Proofs.Calls

/-! Registries whose inputs are all of one width take a sample in as a whole or not at all: the
first feature is an input and refuses samples of any other width, and behind it all values have the
one width. A reset undoes all that was fed. -/

namespace StreamStats

variable {α : Type}

namespace Feature

@[simp] theorem reset_reset (f : Feature α) : f.reset.reset = f.reset := by
  obtain ⟨id, stage⟩ := f
  cases stage <;> simp [reset, Stage.reset, Window.clear, History.clear, History.capacity]

theorem reset_ofWindow {id : String} {statistic : Statistic} {source size : Nat} {f : Feature α}
    (h : ofWindow id statistic source size = .ok f) : f.reset = f := by
  rcases Nat.eq_zero_or_pos size with rfl | hsize
  · cases h
  · simp only [ofWindow, Window.ofSize, History.ofCapacity, if_neg (Nat.ne_of_gt hsize)] at h
    cases h
    cases statistic <;> simp [reset, Stage.reset, Stage.ofWindow, Window.clear, History.clear,
      History.capacity]

variable [Scalar α]

/-- A feature between samples of a width: an input of that width, or a window of nothing else over
an earlier feature. -/
inductive Steady (width index : Nat) : Feature α → Prop where
  | input (id : String) : Steady width index ⟨id, .input width⟩
  | windowed (id : String) {stage : Stage α} {statistic : Statistic} {source size : Nat}
      {past : List (List α)} : source < index → stage.Holds statistic source size past →
      (∀ s ∈ past, s.length = width) → Steady width index ⟨id, stage⟩

variable {width index : Nat} {f : Feature α}

theorem Fresh.steady (hf : f.Fresh index) (hdimension : ∀ dimension, f.stage = .input dimension →
    dimension = width) :
    f.Steady width index := by
  cases hf with
  | input id dimension =>
    obtain rfl := hdimension dimension rfl
    exact .input id
  | windowed id statistic w hw hsource =>
    exact .windowed id hsource (Stage.holds_ofWindow hw statistic) (List.forall_mem_nil _)

theorem Steady.reset (hf : f.Steady width index) : f.reset.Steady width index := by
  cases hf with
  | input id => exact .input id
  | windowed id hsource hholds _ => exact .windowed id hsource hholds.reset (List.forall_mem_nil _)

/-- What is of the width is taken, and so is the value. -/
theorem Steady.feed (hf : f.Steady width index) (hwidth : 0 < width) {sample : List α}
    (hsample : sample.length = width) :
    ∃ value f', f.feed [sample] = .ok (value, f') ∧ value.length = width ∧
    f'.Steady width index := by
  cases hf with
  | input id =>
    have hstage : (Stage.input width).feed id sample = .ok (sample, .input width) := if_pos hsample
    exact ⟨sample, ⟨id, .input width⟩, by rw [Feature.feed, hstage]; rfl, hsample, .input id⟩
  | windowed id hsource hholds hpast =>
    have htaken : refusal? id _ sample = none := refusal?_eq_none_of_widths hwidth hpast hsample
    obtain ⟨stage', hstage, hholds'⟩ := hholds.feed htaken
    refine ⟨_, ⟨id, stage'⟩, by rw [Feature.feed, hstage]; rfl, ?_, .windowed id hsource hholds' ?_⟩
    · rw [length_columns]
      exact hsample
    · exact List.forall_mem_cons.mpr ⟨hsample, hpast⟩

end Feature

namespace Registry

open Feature (Kind)

variable {r r' : Registry α} {f : Feature α} {index : Nat} {addition : Addition}

theorem Addition.reset_feature (h : addition.feature r = .ok f) : f.reset = f := by
  cases addition with
  | described fields =>
    rcases describe_eq_ok h with ⟨id, dimension, rfl⟩ | ⟨id, statistic, source, size, hf⟩
    · rfl
    · exact Feature.reset_ofWindow hf
  | input id dimension =>
    cases h
    rfl
  | windowed id statistic source size => exact Feature.reset_ofWindow h

def Call.adds : Call α → Bool
  | .add _ => true
  | .feed _ | .reset => false

theorem reset_eq (r : Registry α) :
    r.reset = ⟨((r.features.map Feature.reset).map (⟨·, []⟩)).toArray⟩ := by
  simp [reset, features, Function.comp_def, ← List.map_toArray]

@[simp] theorem size_reset (r : Registry α) : r.reset.size = r.size := by simp [size, reset]

@[simp] theorem indexOf?_reset (r : Registry α) (id : String) :
    r.reset.indexOf? id = r.indexOf? id := by
  rw [indexOf?, indexOf?, reset, Array.findIdx?_map]
  rfl

@[simp] theorem feature_reset (r : Registry α) (addition : Addition) :
    addition.feature r.reset = addition.feature r := by
  cases addition with
  | described fields =>
    have hfresh : ∀ kind, r.reset.freshId kind = r.freshId kind := fun kind => by
      simp only [freshId, isTaken, size_reset, indexOf?_reset]
    simp only [Addition.feature, describe, chooseId, resolve, indexOf?_reset, hfresh]
  | input | windowed => rfl

@[simp] theorem insert_reset (r : Registry α) (hf : f.reset = f) :
    r.reset.insert f = (r.insert f).map fun p => (p.1, p.2.reset) := by
  rw [insert, insert, isTaken, isTaken, indexOf?_reset, size_reset]
  split
  · rfl
  · cases f.source?.filter (r.size ≤ ·) with
    | some source => rfl
    | none => simp [Except.map, reset, hf]

@[simp] theorem add_reset (r : Registry α) (addition : Addition) :
    r.reset.add addition = (r.add addition).map fun p => (p.1, p.2.reset) := by
  rw [add, add, feature_reset]
  cases hf : addition.feature r with
  | error e => rfl
  | ok f => exact insert_reset r (Addition.reset_feature hf)

@[simp] theorem reset_reset (r : Registry α) : r.reset.reset = r.reset := by
  simp [reset]

variable [Scalar α]

@[simp] theorem reset_feed (r : Registry α) (sample : List α) :
    (r.feed sample).2.reset = r.reset := by
  rw [reset_eq, reset_eq r, map_feed fun _ _ _ _ h => Feature.reset_feed h]

@[simp] theorem reset_answer (r : Registry α) (call : Call α) :
    (r.answer call).2.reset = if call.adds then (r.reset.answer call).2 else r.reset := by
  cases call with
  | add addition =>
    rw [answer, answer, add_reset]
    cases r.add addition <;> rfl
  | feed sample => exact reset_feed r sample
  | reset => exact reset_reset r

@[simp] theorem reset_after (calls : List (Call α)) :
    (after calls).reset = after (calls.filter Call.adds) := by
  induction calls using List.reverseRecOn with
  | nil => simp [after, reset, empty]
  | append_singleton calls call ih =>
    rw [after_concat, reset_answer, List.filter_append]
    cases h : call.adds with
    | true => simp [h, ih]
    | false => simp [h, ih]

/-- All features are between samples of the width. -/
def Steady (r : Registry α) (width : Nat) : Prop :=
  ∀ (i : Nat) (e : Entry α), r.entries[i]? = some e → e.feature.Steady width i

variable {width : Nat}

theorem Steady.push (hr : r.Steady width) (hf : f.Steady width r.size) {value : List α} :
    Steady ⟨r.entries.push ⟨f, value⟩⟩ width := by
  intro i e he
  rcases getElem?_push_eq_some_iff.mp he with ⟨rfl, rfl⟩ | ⟨-, he⟩
  · exact hf
  · exact hr i e he

/-- A feature reads one value of the width, be it the sample or of an earlier feature. -/
theorem inputs_of_steady {fed : Array (Entry α)} (hf : f.Steady width fed.size)
    (hvalues : ∀ e ∈ fed, e.value.length = width) {sample : List α}
    (hsample : sample.length = width) :
    ∃ read, inputs fed sample f = [read] ∧ read.length = width := by
  cases hf with
  | input id => exact ⟨sample, rfl, hsample⟩
  | windowed id hsource hholds _ =>
    refine ⟨_, ?_, hvalues _ (Array.getElem_mem hsource)⟩
    simp only [inputs, Feature.source?, hholds.source_eq, Array.getElem?_eq_getElem hsource]
    rfl

theorem feedAll_of_steady {sample : List α} {fed : Array (Entry α)} {rest : List (Entry α)}
    (hwidth : 0 < width) (hsample : sample.length = width) (hfed : Steady ⟨fed⟩ width)
    (hvalues : ∀ e ∈ fed, e.value.length = width)
    (hrest : ∀ (i : Nat) (e : Entry α), rest[i]? = some e → e.feature.Steady width (fed.size + i)) :
    ∃ entries, feedAll sample fed rest = (.ok (), entries) ∧ Steady ⟨entries⟩ width ∧
      (∀ e ∈ entries, e.value.length = width) ∧ entries.size = fed.size + rest.length := by
  induction rest generalizing fed with
  | nil => exact ⟨fed, rfl, hfed, hvalues, rfl⟩
  | cons entry rest ih =>
    have hentry : entry.feature.Steady width fed.size := hrest 0 entry rfl
    obtain ⟨read, hread, hlen⟩ := inputs_of_steady hentry hvalues hsample
    obtain ⟨value, f, hfeed, hvalue, hf⟩ := hentry.feed hwidth hlen
    have hvalues' : ∀ e ∈ fed.push ⟨f, value⟩, e.value.length = width := fun e he => by
      rcases Array.mem_push.mp he with he | rfl
      · exact hvalues e he
      · exact hvalue
    have hrest' : ∀ (i : Nat) (e : Entry α), rest[i]? = some e →
        e.feature.Steady width ((fed.push ⟨f, value⟩).size + i) := fun i e he => by
      rw [Array.size_push, Nat.add_assoc, Nat.add_comm 1]
      exact hrest (i + 1) e he
    obtain ⟨entries, hentries, hsteady, hwidths, hsize⟩ := ih (hfed.push hf) hvalues' hrest'
    refine ⟨entries, ?_, hsteady, hwidths, ?_⟩
    · simp only [feedAll, hread, hfeed, hentries]
    · rw [hsize, Array.size_push, List.length_cons, Nat.add_assoc, Nat.add_comm 1]

theorem feed_of_eq (hr : r.Steady width) (hne : r.entries ≠ #[]) (hwidth : 0 < width)
    {sample : List α} (hsample : sample.length = width) :
    ∃ value r', r.feed sample = (.ok value, r') ∧ r'.Steady width ∧ value.length = width ∧
      ∀ e ∈ r'.entries, e.value.length = width := by
  have hstart : Steady (⟨#[]⟩ : Registry α) width := fun i e he => by simp at he
  have hrest : ∀ (i : Nat) (e : Entry α), r.entries.toList[i]? = some e →
      e.feature.Steady width ((#[] : Array (Entry α)).size + i) :=
    fun i e he => by simpa using hr i e (by simpa using he)
  obtain ⟨entries, hfed, hsteady, hwidths, hsize⟩ :=
    feedAll_of_steady hwidth hsample hstart (by simp) hrest
  have hlast : entries.size - 1 < entries.size := by
    have hpos : 0 < r.entries.size := Array.size_pos_iff.mpr hne
    rw [Array.length_toList] at hsize
    omega
  refine ⟨_, ⟨entries⟩, ?_, hsteady, hwidths entries[entries.size - 1] (Array.getElem_mem hlast),
    hwidths⟩
  have hback : entries.back? = some entries[entries.size - 1] := by
    rw [Array.back?_eq_getElem?, Array.getElem?_eq_getElem hlast]
  rw [feed, if_neg (by simpa using hne), hfed]
  simp [hback, Except.map]

theorem feed_of_ne (hr : r.Steady width) (hne : r.entries ≠ #[]) {sample : List α}
    (hsample : sample.length ≠ width) :
    ∃ f ∈ r.features.head?, r.feed sample = (.error (.sampleWidth f.id width sample.length),
      r) := by
  cases hentries : r.entries.toList with
  | nil => exact absurd (Array.toList_eq_nil_iff.mp hentries) hne
  | cons entry rest =>
    have hentry := hr 0 entry (by rw [← Array.getElem?_toList, hentries, List.getElem?_cons_zero])
    refine ⟨entry.feature, by simp [features, hentries], ?_⟩
    rw [feed, if_neg (by simpa using hne), hentries]
    obtain ⟨f, value⟩ := entry
    cases hentry with
    | windowed id hsource => exact absurd hsource (Nat.not_lt_zero _)
    | input id =>
      have hfeed : Feature.feed ⟨id, .input width⟩ [sample] =
          .error (.sampleWidth id width sample.length) := by
        rw [Feature.feed, Feature.Stage.feed, if_neg hsample]
        rfl
      have hinputs : inputs #[] sample ⟨id, .input width⟩ = [sample] := rfl
      simp only [feedAll, hinputs, hfeed, ← hentries]
      simp [Except.map]

omit [Scalar α] in
theorem takesWidth_iff : r.TakesWidth width ↔ ∀ d ∈ r.declarations, d.kind = .input →
    d.number = width := by
  have hstage : ∀ f : Feature α, (∀ dimension, f.stage = .input dimension → dimension = width) ↔
      (f.declaration.kind = .input → f.declaration.number = width) := by
    rintro ⟨id, stage⟩
    cases stage <;> simp [Feature.declaration, Feature.kind, Feature.Stage.kind,
      Feature.Stage.number]
  rw [TakesWidth, declarations, List.forall_mem_map]
  exact forall₂_congr fun f _ => hstage f

omit [Scalar α] in
theorem Addition.fresh_feature (h : addition.feature r = .ok f)
    (hsource : ∀ s ∈ f.source?, s < r.size) :
    f.Fresh r.size := by
  cases addition with
  | described fields =>
    rcases describe_eq_ok h with ⟨id, dimension, rfl⟩ | ⟨id, statistic, source, size, hf⟩
    · exact .input id dimension
    · exact Feature.fresh_ofWindow hf hsource
  | input id dimension =>
    cases h
    exact .input id dimension
  | windowed id statistic source size => exact Feature.fresh_ofWindow h hsource

theorem Steady.add (hr : r.Steady width) (h : r.add addition = .ok (index, r'))
    (htakes : r'.TakesWidth width) :
    r'.Steady width := by
  obtain ⟨f, hf, hinsert⟩ := add_eq_ok h
  obtain ⟨-, hsource, -, rfl⟩ := insert_eq_ok_iff.mp hinsert
  exact hr.push ((Addition.fresh_feature hf hsource).steady (htakes f (by simp [features])))

theorem Steady.reset (hr : r.Steady width) : r.reset.Steady width := by
  intro i e he
  rw [Registry.reset, Array.getElem?_map, Option.map_eq_some_iff] at he
  obtain ⟨e, he, rfl⟩ := he
  exact (hr i e he).reset

theorem Steady.feed (hr : r.Steady width) (hwidth : 0 < width) (sample : List α) :
    (r.feed sample).2.Steady width := by
  by_cases hne : r.entries = #[]
  · rw [Registry.feed, if_pos (by simpa using hne)]
    exact hr
  · by_cases hsample : sample.length = width
    · obtain ⟨value, r', hfeed, hr', -⟩ := feed_of_eq hr hne hwidth hsample
      rw [hfeed]
      exact hr'
    · obtain ⟨f, -, hfeed⟩ := feed_of_ne hr hne hsample
      rw [hfeed]
      exact hr

/-- Between calls all features are between samples. -/
theorem steady_after {calls : List (Call α)} (hwidth : 0 < width)
    (htakes : (after calls).TakesWidth width) :
    (after calls).Steady width := by
  induction calls using List.reverseRecOn with
  | nil => exact fun i e he => by simp [after, empty] at he
  | append_singleton calls call ih =>
    have hearlier := declarations_after calls [call]
    have hr := ih (takesWidth_iff.mpr fun d hd => takesWidth_iff.mp htakes d (hearlier.subset hd))
    rw [after_concat] at htakes ⊢
    cases call with
    | add addition =>
      rw [answer] at htakes ⊢
      cases h : (after calls).add addition with
      | ok p =>
        rw [h] at htakes
        exact hr.add h htakes
      | error e => exact hr
    | feed sample => exact hr.feed hwidth sample
    | reset => exact hr.reset

/-- A registry with inputs of one width takes a sample if it has that width, and then every feature
has a value of that width. Any other sample leaves it as it was. After a reset all goes on as if
nothing had been fed. -/
theorem feed_whole (calls : List (Call α)) (hne : (after calls).entries ≠ #[]) (hwidth : 0 < width)
    (htakes : (after calls).TakesWidth width) :
    (∀ sample, sample.length = width → ∃ value r', (after calls).feed sample = (.ok value, r') ∧
      value.length = width ∧ ∀ e ∈ r'.entries, e.value.length = width) ∧
    (∀ sample, sample.length ≠ width → ∃ f ∈ (after calls).features.head?,
      (after calls).feed sample = (.error (.sampleWidth f.id width sample.length), after calls)) ∧
    ∀ more, after (calls ++ .reset :: more) = after (calls.filter Call.adds ++ more) := by
  have hr := steady_after hwidth htakes
  refine ⟨fun sample hsample => ?_, fun sample hsample => feed_of_ne hr hne hsample, fun more => ?_⟩
  · obtain ⟨value, r', hfeed, -, hvalue, hvalues⟩ := feed_of_eq hr hne hwidth hsample
    exact ⟨value, r', hfeed, hvalue, hvalues⟩
  · rw [after_append, List.foldl_cons, after_append, ← reset_after]
    rfl

def mixed : List (Call Float) := [.feed [], .add (.described ["x", "input", "2"]), .feed [0, 0],
  .add (.windowed "m" .incrementalMean 0 3), .feed [0],
  .add (.described ["", "incremental_variance", "m", "2"]),
  .add (.described ["x", "mean", "m", "2"]), .feed [0, 0]]

theorem declarations_mixed : (after mixed).declarations =
    [⟨"x", .input, none, 2⟩, ⟨"m", .windowed .incrementalMean, some 0, 3⟩,
      ⟨"incremental_variance_2", .windowed .incrementalVariance, some 1, 2⟩] := by
  rw [← declarations_reset, reset_after]
  decide +kernel

theorem feed_whole_mixed :
    ((after mixed).entries ≠ #[] ∧ 0 < 2 ∧ (after mixed).TakesWidth 2) ∧
    (∀ sample, sample.length = 2 → ∃ value r', (after mixed).feed sample = (.ok value, r') ∧
      value.length = 2 ∧ ∀ e ∈ r'.entries, e.value.length = 2) ∧
    (∀ sample, sample.length ≠ 2 → ∃ f ∈ (after mixed).features.head?,
      (after mixed).feed sample = (.error (.sampleWidth f.id 2 sample.length), after mixed)) ∧
    ∀ more, after (mixed ++ .reset :: more) = after (mixed.filter Call.adds ++ more) := by
  have hne : (after mixed).entries ≠ #[] := fun h => by
    have hdeclarations := declarations_mixed
    simp [declarations, features, h] at hdeclarations
  have htakes : (after mixed).TakesWidth 2 := takesWidth_iff.mpr (by rw [declarations_mixed]; simp)
  exact ⟨⟨hne, by decide, htakes⟩, feed_whole mixed hne (by decide) htakes⟩

end Registry
end StreamStats
