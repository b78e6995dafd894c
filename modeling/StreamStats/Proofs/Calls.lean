import Mathlib.Data.List.Induction
import Mathlib.Data.List.Nodup
import StreamStats.Proofs.Registries

/-! Registries under any use: features are added, samples fed and everything is reset, and any of
these may fail. What a feature was declared as stays for good, and so do all declarations before
it. -/

namespace StreamStats

variable {α : Type}

namespace Feature

def Stage.number : Stage α → Nat
  | input dimension => dimension
  | mean w | incrementalMean w _ | variance w | incrementalVariance w _ _ => w.size

/-- What stays of a feature whatever it is fed. -/
structure Declaration where
  id : String
  kind : Kind
  source? : Option Nat
  number : Nat
  deriving DecidableEq

def declaration (f : Feature α) : Declaration := ⟨f.id, f.kind, f.source?, f.stage.number⟩

@[simp] theorem declaration_reset (f : Feature α) : f.reset.declaration = f.declaration := by
  obtain ⟨id, stage⟩ := f
  cases stage <;> rfl

theorem Window.record_eq_ok {id : String} {w w' : Window α} {sample : List α}
    (h : w.record id sample = .ok w') :
    ∃ history, w' = { w with history } ∧ history.capacity = w.history.capacity := by
  unfold record at h
  split at h
  · cases h
  · split at h
    · rename_i history hrecord
      cases h
      obtain ⟨⟨⟩, -, hrecord⟩ := ok_of_bind hrecord
      cases hrecord
      exact ⟨_, rfl, by simp [History.capacity]⟩
    · cases h

theorem Window.clear_record {id : String} {w w' : Window α} {sample : List α}
    (h : w.record id sample = .ok w') :
    w'.clear = w.clear := by
  obtain ⟨history, rfl, hcapacity⟩ := record_eq_ok h
  simp only [clear, History.clear, hcapacity]

theorem Stage.reset_feed [Scalar α] {id : String} {stage stage' : Stage α} {sample value : List α}
    (h : stage.feed id sample = .ok (value, stage')) : stage'.reset = stage.reset := by
  cases stage with
  | input dimension =>
    simp only [feed] at h
    split at h
    · cases h
      rfl
    · cases h
  | mean w | incrementalMean w sum | variance w | incrementalVariance w sum sumSquares =>
    obtain ⟨w', hw, h⟩ := ok_of_bind h
    cases h
    simp only [reset, Window.clear_record hw]

theorem reset_feed [Scalar α] {f f' : Feature α} {inputs : List (List α)} {value : List α}
    (h : f.feed inputs = .ok (value, f')) : f'.reset = f.reset := by
  unfold feed at h
  split at h
  · obtain ⟨⟨value', stage⟩, hstage, h⟩ := ok_of_bind h
    cases h
    simp only [reset, Stage.reset_feed hstage]
  · cases h

theorem declaration_feed [Scalar α] {f f' : Feature α} {inputs : List (List α)} {value : List α}
    (h : f.feed inputs = .ok (value, f')) : f'.declaration = f.declaration := by
  rw [← declaration_reset, reset_feed h, declaration_reset]

end Feature

namespace Registry

open Feature (Declaration Statistic)

/-- What a feature is added by: a description, or what a feature is made of. -/
inductive Addition where
  | described (fields : List String)
  | input (id : String) (dimension : Nat)
  | windowed (id : String) (statistic : Statistic) (source size : Nat)

inductive Call (α : Type) where
  | add (addition : Addition)
  | feed (sample : List α)
  | reset

inductive Answer (α : Type) where
  | added (index : Nat)
  | value (values : List α)
  | done

/-- The feature to add. Descriptions alone look at those that are there. -/
def Addition.feature (r : Registry α) : Addition → Except FeatureError (Feature α)
  | described fields => r.describe fields
  | input id dimension => .ok (.ofInput id dimension)
  | windowed id statistic source size => Feature.ofWindow id statistic source size

def add (r : Registry α) (addition : Addition) : Except FeatureError (Nat × Registry α) := do
  r.insert (← addition.feature r)

/-- A registry that refuses a feature stays as it was. -/
def answer [Scalar α] (r : Registry α) : Call α → Except FeatureError (Answer α) × Registry α
  | .add addition =>
    match r.add addition with
    | .ok (index, r') => (.ok (.added index), r')
    | .error e => (.error e, r)
  | .feed sample => ((r.feed sample).1.map .value, (r.feed sample).2)
  | .reset => (.ok .done, r.reset)

/-- A new registry after calls, whatever they answered. -/
def after [Scalar α] (calls : List (Call α)) : Registry α :=
  calls.foldl (fun r call => (r.answer call).2) empty

def declarations (r : Registry α) : List Declaration := r.features.map Feature.declaration

/-- All features have an id of their own and read earlier ones. -/
structure Consistent (declarations : List Declaration) : Prop where
  named : ∀ d ∈ declarations, d.id ≠ ""
  nodup : (declarations.map Declaration.id).Nodup
  source_lt : ∀ (i : Nat) (d : Declaration), declarations[i]? = some d → ∀ s ∈ d.source?, s < i

variable {r r' : Registry α} {f : Feature α} {index : Nat} {addition : Addition}

@[simp] theorem features_push (r : Registry α) (e : Entry α) :
    features ⟨r.entries.push e⟩ = r.features ++ [e.feature] := by
  simp [features]

@[simp] theorem declarations_push (r : Registry α) (e : Entry α) :
    declarations ⟨r.entries.push e⟩ = r.declarations ++ [e.feature.declaration] := by
  rw [declarations, features_push, List.map_append]
  rfl

@[simp] theorem length_declarations (r : Registry α) : r.declarations.length = r.size := by
  rw [declarations, List.length_map, length_features]

@[simp] theorem declarations_reset (r : Registry α) : r.reset.declarations = r.declarations := by
  simp [declarations, features, reset]

theorem add_eq_ok (h : r.add addition = .ok (index, r')) :
    ∃ f, addition.feature r = .ok f ∧ r.insert f = .ok (index, r') := ok_of_bind h

theorem declarations_add (h : r.add addition = .ok (index, r')) :
    ∃ f, addition.feature r = .ok f ∧ index = r.size ∧
    r'.declarations = r.declarations ++ [f.declaration] := by
  obtain ⟨f, hf, hinsert⟩ := add_eq_ok h
  obtain ⟨-, -, hindex, rfl⟩ := insert_eq_ok_iff.mp hinsert
  exact ⟨f, hf, hindex, declarations_push r _⟩

theorem Consistent.insert (hr : Consistent r.declarations) (h : r.insert f = .ok (index, r')) :
    Consistent r'.declarations := by
  obtain ⟨⟨hne, hnew⟩, hsource, -, rfl⟩ := insert_eq_ok_iff.mp h
  rw [declarations_push]
  refine ⟨fun d hd => ?_, ?_, fun i d hd => ?_⟩
  · rcases List.mem_append.mp hd with hd | hd
    · exact hr.named d hd
    · rw [List.mem_singleton.mp hd]
      exact hne
  · rw [List.map_append, List.nodup_append]
    refine ⟨hr.nodup, List.nodup_singleton _, fun id hid id' hid' => ?_⟩
    obtain ⟨d, hd, rfl⟩ := List.mem_map.mp hid
    obtain ⟨g, hg, rfl⟩ := List.mem_map.mp hd
    rw [List.map_singleton, List.mem_singleton] at hid'
    rw [hid']
    exact hnew g hg
  · rcases Nat.lt_or_ge i r.declarations.length with hi | hi
    · rw [List.getElem?_append_left hi] at hd
      exact hr.source_lt i d hd
    · rw [List.getElem?_append_right hi, List.getElem?_singleton] at hd
      split at hd
      · cases hd
        rw [length_declarations] at hi
        exact fun s hs => Nat.lt_of_lt_of_le (hsource s hs) hi
      · cases hd

theorem Consistent.add (hr : Consistent r.declarations) (h : r.add addition = .ok (index, r')) :
    Consistent r'.declarations := by
  obtain ⟨f, -, hinsert⟩ := add_eq_ok h
  exact hr.insert hinsert

@[simp] theorem consistent_empty : Consistent (empty : Registry α).declarations := by
  constructor <;> simp [declarations, features, empty]

theorem indexOf?_eq_some_iff (hr : Consistent r.declarations) {id : String} :
    r.indexOf? id = some index ↔ ∃ f, r.features[index]? = some f ∧ f.id = id := by
  have hfeature : ∀ i, r.features[i]? = r.entries[i]?.map Entry.feature := fun i => by
    rw [features, List.getElem?_map, Array.getElem?_toList]
  rw [indexOf?, Array.findIdx?_eq_some_iff_getElem]
  constructor
  · rintro ⟨hlt, hid, -⟩
    exact ⟨_, by rw [hfeature, Array.getElem?_eq_getElem hlt, Option.map_some], beq_iff_eq.mp hid⟩
  · rintro ⟨f, hf, rfl⟩
    rw [hfeature] at hf
    obtain ⟨e, he, rfl⟩ := Option.map_eq_some_iff.mp hf
    obtain ⟨hlt, rfl⟩ := Array.getElem?_eq_some_iff.mp he
    refine ⟨hlt, beq_self_eq_true _, fun j hj => ?_⟩
    -- no earlier feature has the id
    have hnodup := hr.nodup
    rw [declarations, features, List.map_map, List.map_map] at hnodup
    have hne := (List.nodup_iff_getElem?_ne_getElem?.mp hnodup) j index hj (by simpa using hlt)
    have hlt' : j < r.entries.size := Nat.lt_trans hj hlt
    simpa [hlt, hlt', Feature.declaration] using hne

variable [Scalar α]

/-- What a feature keeps when it is fed all of them keep, also the ones in front of one that
fails. -/
theorem map_feedAll {γ : Type} {g : Feature α → γ}
    (hg : ∀ (f f' : Feature α) inputs value, f.feed inputs = .ok (value, f') → g f' = g f)
    (sample : List α) (fed : Array (Entry α)) (rest : List (Entry α)) :
    (feedAll sample fed rest).2.toList.map (fun e => g e.feature) =
      (fed.toList ++ rest).map fun e => g e.feature := by
  induction rest generalizing fed with
  | nil => simp [feedAll]
  | cons entry rest ih =>
    unfold feedAll
    split
    · rename_i value f hf
      rw [ih]
      simp [hg _ _ _ _ hf]
    · simp

theorem map_feed {γ : Type} {g : Feature α → γ}
    (hg : ∀ (f f' : Feature α) inputs value, f.feed inputs = .ok (value, f') → g f' = g f)
    (r : Registry α) (sample : List α) : (r.feed sample).2.features.map g = r.features.map g := by
  unfold feed
  split
  · rfl
  · simpa [features, Function.comp_def] using map_feedAll hg sample #[] r.entries.toList

@[simp] theorem declarations_feed (r : Registry α) (sample : List α) :
    (r.feed sample).2.declarations = r.declarations :=
  map_feed (fun _ _ _ _ h => Feature.declaration_feed h) r sample

/-- No call takes a declaration away or puts one in between. -/
@[simp] theorem declarations_answer (r : Registry α) (call : Call α) :
    r.declarations <+: (r.answer call).2.declarations := by
  cases call with
  | add addition =>
    rw [answer]
    split
    · rename_i h
      obtain ⟨f, -, -, hr'⟩ := declarations_add h
      exact ⟨[f.declaration], hr'.symm⟩
    · exact List.prefix_rfl
  | feed sample => exact (declarations_feed r sample) ▸ List.prefix_rfl
  | reset => exact (declarations_reset r) ▸ List.prefix_rfl

theorem Consistent.answer (hr : Consistent r.declarations) (call : Call α) :
    Consistent (r.answer call).2.declarations := by
  cases call with
  | add addition =>
    rw [Registry.answer]
    split
    · rename_i h
      exact hr.add h
    · exact hr
  | feed sample => exact (declarations_feed r sample).symm ▸ hr
  | reset => exact (declarations_reset r).symm ▸ hr

@[simp] theorem after_append (calls more : List (Call α)) :
    after (calls ++ more) = more.foldl (fun r call => (r.answer call).2) (after calls) :=
  List.foldl_append

theorem after_concat (calls : List (Call α)) (call : Call α) :
    after (calls ++ [call]) = ((after calls).answer call).2 := after_append calls [call]

/-- What holds of a new registry and is kept by every call holds after any calls. -/
theorem after_induction {P : Registry α → Prop} (hempty : P empty)
    (hstep : ∀ r call, P r → P (r.answer call).2) (calls : List (Call α)) : P (after calls) := by
  induction calls using List.reverseRecOn with
  | nil => exact hempty
  | append_singleton calls call ih =>
    rw [after_concat]
    exact hstep _ call ih

@[simp] theorem consistent_after (calls : List (Call α)) : Consistent (after calls).declarations :=
  after_induction (P := fun r => Consistent r.declarations) consistent_empty
  (fun _ call hr => hr.answer call) calls

/-- An accepted feature keeps its index and what it was declared as. -/
theorem declarations_after (calls more : List (Call α)) :
    (after calls).declarations <+: (after (calls ++ more)).declarations := by
  induction more using List.reverseRecOn with
  | nil => simp only [List.append_nil, List.prefix_rfl]
  | append_singleton more call ih =>
    rw [← List.append_assoc, after_concat]
    exact ih.trans (declarations_answer _ call)

end Registry
end StreamStats
