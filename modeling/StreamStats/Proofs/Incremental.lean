import StreamStats.Proofs.Exact

/-! Windowed features under a caller who feeds and resets them as he likes. What a feature answers
depends only on the samples that it took since the last reset; so in exact arithmetic incremental
features answer as those that go through their window anew. -/

namespace StreamStats
namespace Feature

variable {α : Type} [Scalar α]

inductive Action (α : Type) where
  | feed (inputs : List (List α))
  | reset

/-- The samples taken since the last reset, the newest first: those that are not empty and as wide
as the ones before. -/
def Action.taken (past : List (List α)) : Action α → List (List α)
  | feed [sample] =>
    if sample ≠ [] ∧ (past ≠ [] → widthOf past = sample.length) then sample :: past else past
  | feed _ => past
  | reset => []

def answer (f : Feature α) (inputs : List (List α)) : Except FeatureError (List α) :=
  (f.feed inputs).map Prod.fst

/-- The feature afterwards; where it refuses what it is fed, it stays as it is. -/
def act (f : Feature α) : Action α → Feature α
  | .feed inputs =>
    match f.feed inputs with
    | .ok (_, f') => f'
    | .error _ => f
  | .reset => f.reset

/-- The answer of a feature that makes `g` of each component of the samples taken. -/
def respond (id : String) (g : List α → α) (past : List (List α)) :
    List (List α) → Except FeatureError (List α)
  | [sample] =>
    match refusal? id past sample with
    | some e => .error e
    | none => .ok (columns g (sample :: past))
  | inputs => .error (.inputCount id inputs.length)

omit [Scalar α] in
theorem Action.taken_feed (id : String) (past : List (List α)) (sample : List α) :
    (Action.feed [sample]).taken past = if refusal? id past sample = none then sample :: past
    else past := by
  simp only [taken, refusal?_eq_none_iff]

omit [Scalar α] in
/-- Features with different ids refuse the same samples. -/
theorem respond_eq_ok_iff [Scalar α] {id id' : String} {g : List α → α}
    {past inputs : List (List α)} {value : List α} :
    respond id g past inputs = .ok value ↔ respond id' g past inputs = .ok value := by
  have hrefused : ∀ sample : List α, refusal? id past sample = none ↔
      refusal? id' past sample = none := fun sample => by
    rw [refusal?_eq_none_iff, refusal?_eq_none_iff]
  match inputs with
  | [] | _ :: _ :: _ => exact ⟨nofun, nofun⟩
  | [sample] =>
    simp only [respond]
    cases h : refusal? id past sample with
    | none => rw [(hrefused sample).mp h]
    | some e =>
      cases h' : refusal? id' past sample with
      | none => exact absurd ((hrefused sample).mpr h') (by simp [h])
      | some e' => exact ⟨nofun, nofun⟩

variable {f : Feature α} {statistic : Statistic} {source size : Nat} {past : List (List α)}

theorem answer_eq (h : f.stage.Holds statistic source size past) (inputs : List (List α)) :
    f.answer inputs = respond f.id (statistic.value size) past inputs := by
  match inputs with
  | [] | _ :: _ :: _ => rfl
  | [sample] =>
    rw [answer, feed, respond]
    cases hs : refusal? f.id past sample with
    | some e =>
      rw [h.feed_of_refusal hs]
      rfl
    | none =>
      obtain ⟨stage', hfeed, -⟩ := h.feed hs
      rw [hfeed]
      rfl

theorem act_holds (h : f.stage.Holds statistic source size past) (action : Action α) :
    (f.act action).id = f.id ∧
    (f.act action).stage.Holds statistic source size (action.taken past) := by
  match action with
  | .reset => exact ⟨rfl, h.reset⟩
  | .feed [] | .feed (_ :: _ :: _) => exact ⟨rfl, h⟩
  | .feed [sample] =>
    rw [act, feed, Action.taken_feed f.id]
    cases hs : refusal? f.id past sample with
    | some e =>
      rw [h.feed_of_refusal hs, if_neg (Option.some_ne_none e)]
      exact ⟨rfl, h⟩
    | none =>
      obtain ⟨stage', hfeed, hstage'⟩ := h.feed hs
      rw [hfeed, if_pos rfl]
      exact ⟨rfl, hstage'⟩

/-- A run leads to a feature that has seen the samples taken since the last reset. -/
theorem foldl_act_holds (h : f.stage.Holds statistic source size past) (actions : List (Action α)) :
    (actions.foldl act f).id = f.id ∧
      (actions.foldl act f).stage.Holds statistic source size
        (actions.foldl Action.taken past) := by
  induction actions generalizing f past with
  | nil => exact ⟨rfl, h⟩
  | cons action actions ih =>
    obtain ⟨hid, hact⟩ := act_holds h action
    obtain ⟨hids, hrun⟩ := ih hact
    exact ⟨hids.trans hid, hrun⟩

/-- In exact arithmetic the answers of all four windowed features are the mean and the variance of
the window, and the sums that incremental features keep are those over the window. -/
theorem incremental_eq_recomputed (ids : Statistic → String) (sources : Statistic → Nat)
    {size : Nat} (hsize : 0 < size) :
    ∃ features : Statistic → Feature ℚ,
      (∀ s, ofWindow (ids s) s (sources s) size = .ok (features s)) ∧
      ∀ actions : List (Action ℚ),
        let now s := actions.foldl act (features s)
        let past := actions.foldl Action.taken []
        (∀ inputs value, (now .incrementalMean).answer inputs = .ok value ↔
          (now .mean).answer inputs = .ok value) ∧
        (∀ inputs value, (now .incrementalVariance).answer inputs = .ok value ↔
          (now .variance).answer inputs = .ok value) ∧
        (∀ inputs, (now .mean).answer inputs =
          respond (ids .mean) (fun xs => average (fit size xs)) past inputs) ∧
        (∀ inputs, (now .variance).answer inputs =
          respond (ids .variance) (fun xs => populationVariance (fit size xs)) past inputs) ∧
        (∃ w, (now .incrementalMean).stage = .incrementalMean w
          (columns (fun xs => (fit size xs).sum) past)) ∧
        ∃ w, (now .incrementalVariance).stage = .incrementalVariance w
          (columns (fun xs => (fit size xs).sum) past)
          (columns (fun xs => ((fit size xs).map fun x => x * x).sum) past) := by
  choose windows hfeatures hwindows using fun s =>
    exists_ofWindow (α := ℚ) (ids s) s (sources s) hsize
  refine ⟨fun s => ⟨ids s, .ofWindow (windows s) s⟩, hfeatures, fun actions => ?_⟩
  have hruns : ∀ s, _ := fun s =>
    foldl_act_holds (f := ⟨ids s, .ofWindow (windows s) s⟩) (Stage.holds_ofWindow (hwindows s) s)
    actions
  have hanswer : ∀ s inputs, (actions.foldl act ⟨ids s, .ofWindow (windows s) s⟩).answer inputs =
      respond (ids s) (fun xs => s.exact (fit size xs)) (actions.foldl Action.taken []) inputs := by
    intro s inputs
    rw [answer_eq (hruns s).2, (hruns s).1, funext fun xs => s.value_eq_exact hsize xs]
  refine ⟨fun inputs value => ?_, fun inputs value => ?_, hanswer .mean, hanswer .variance, ?_, ?_⟩
  · rw [hanswer, hanswer]
    exact respond_eq_ok_iff
  · rw [hanswer, hanswer]
    exact respond_eq_ok_iff
  · obtain ⟨w, hw, hstage⟩ := (hruns .incrementalMean).2
    exact ⟨w, by rw [hstage, Stage.after, hw.size_eq, funext (accumulate_change_eq size)]⟩
  · obtain ⟨w, hw, hstage⟩ := (hruns .incrementalVariance).2
    exact ⟨w, by rw [hstage, Stage.after, hw.size_eq, funext (accumulate_change_eq size),
      funext (accumulate_changeSquares_eq size)]⟩

theorem incremental_eq_recomputed_three :
    ∃ features : Statistic → Feature ℚ, (∀ s, ofWindow "f" s 0 3 = .ok (features s)) ∧
      ∀ (actions : List (Action ℚ)) (inputs : List (List ℚ)) (value : List ℚ),
        (actions.foldl act (features .incrementalVariance)).answer inputs = .ok value ↔
          (actions.foldl act (features .variance)).answer inputs = .ok value := by
  obtain ⟨features, hfeatures, h⟩ := incremental_eq_recomputed (fun _ => "f")
    (fun _ => 0) (by decide : 0 < 3)
  exact ⟨features, hfeatures, fun actions => (h actions).2.1⟩

end Feature
end StreamStats
