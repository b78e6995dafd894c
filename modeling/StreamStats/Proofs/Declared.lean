import StreamStats.Proofs.Calls

/-! Which descriptions declare a feature, and which one. A description is refused by the first of
many checks that it fails; none is left when its fields are right and its id is free. An id that is
left empty is made up, and there is always one to make up. -/

namespace StreamStats

variable {α : Type}

namespace Feature

@[simp] theorem Kind.ofTag?_eq_some_iff {tag : String} {kind : Kind} :
    ofTag? tag = some kind ↔ kind.tag = tag := by
  constructor
  · intro h
    exact beq_iff_eq.mp (List.find?_some (p := fun k : Kind => k.tag == tag) h)
  · rintro rfl
    exact ofTag?_tag kind

/-- A window that has been given nothing. -/
def Window.blank (source size : Nat) : Window α :=
  ⟨source, size, ⟨Array.replicate size [], 0, 0, none, 0⟩⟩

@[simp] theorem ofWindow_eq_ok_iff {id : String} {statistic : Statistic} {source size : Nat}
    {f : Feature α} :
    ofWindow id statistic source size = .ok f ↔ 0 < size ∧
    f = ⟨id, .ofWindow (.blank source size) statistic⟩ := by
  rcases Nat.eq_zero_or_pos size with rfl | hsize
  · constructor
    · nofun
    · rintro ⟨hlt, -⟩
      exact absurd hlt (Nat.lt_irrefl 0)
  · have hnew : ofWindow id statistic source size =
        .ok (⟨id, .ofWindow (.blank source size) statistic⟩ : Feature α) := by
      simp only [ofWindow, Window.ofSize, History.ofCapacity, if_neg (Nat.ne_of_gt hsize)]
      rfl
    rw [hnew, Except.ok.injEq, eq_comm, and_iff_right hsize]

end Feature

namespace Registry

open Feature (Kind Statistic Declaration)

variable {r r' : Registry α} {f : Feature α} {index n m : Nat} {kind : Kind} {id : String}

theorem numberedId_injective (h : numberedId kind n = numberedId kind m) : n = m :=
  toString_injective ((String.append_right_inj _).mp h)

@[simp] theorem numberedId_ne_empty (kind : Kind) (n : Nat) : numberedId kind n ≠ "" := by
  intro h
  have hlist := congrArg String.toList h
  simp [numberedId, String.toList_append] at hlist

/-- Going through the numbered ids from this number on, one that is taken after the other, the first
that is free is this one. -/
inductive Counts (r : Registry α) (kind : Kind) : Nat → String → Prop where
  | free {n : Nat} : r.isTaken (numberedId kind n) = false → Counts r kind n (numberedId kind n)
  | taken {n : Nat} {id : String} : r.isTaken (numberedId kind n) = true →
      Counts r kind (n + 1) id → Counts r kind n id

theorem Counts.not_taken (h : r.Counts kind n id) : r.isTaken id = false := by
  induction h with
  | free hfree => exact hfree
  | taken _ _ ih => exact ih

theorem Counts.ne_empty (h : r.Counts kind n id) : id ≠ "" := by
  induction h with
  | free => exact numberedId_ne_empty kind _
  | taken _ _ ih => exact ih

theorem Counts.unique (h : r.Counts kind n id) :
    ∀ {id' : String}, r.Counts kind n id' → id' = id := by
  induction h with
  | free hfree =>
    intro id' h'
    cases h' with
    | free => rfl
    | taken htaken => simp [hfree] at htaken
  | taken htaken _ ih =>
    intro id' h'
    cases h' with
    | free hfree => simp [hfree] at htaken
    | taken _ h' => exact ih h'

theorem counts_of_taken (hle : n ≤ m)
    (htaken : ∀ i, n ≤ i → i < m → r.isTaken (numberedId kind i) = true)
    (hfree : r.isTaken (numberedId kind m) = false) : r.Counts kind n (numberedId kind m) :=
  Nat.decreasingInduction' (fun i hlt hle h => .taken (htaken i hle hlt) h) hle (.free hfree)

/-- Of more ids than there are features one is free. -/
theorem exists_free (r : Registry α) (kind : Kind) :
    ∃ n ∈ List.range' r.size (r.size + 1), r.isTaken (numberedId kind n) = false := by
  by_contra hall
  have hsub : (List.range' r.size (r.size + 1)).map (numberedId kind) ⊆
      r.features.map Feature.id := by
    intro id hid
    obtain ⟨n, hn, rfl⟩ := List.mem_map.mp hid
    by_contra hnot
    refine hall ⟨n, hn, isTaken_eq_false_iff.mpr fun g hg heq => hnot ?_⟩
    exact heq ▸ List.mem_map_of_mem hg
  have hnodup : ((List.range' r.size (r.size + 1)).map (numberedId kind)).Nodup :=
    List.Nodup.map (fun _ _ h => numberedId_injective h) List.nodup_range'
  have hle := hnodup.length_le_of_subset hsub
  rw [List.length_map, List.length_map, List.length_range', length_features] at hle
  exact Nat.not_succ_le_self _ hle

theorem counts_freshId (r : Registry α) (kind : Kind) : r.Counts kind r.size (r.freshId kind) := by
  obtain ⟨free, hmem, hfree⟩ := exists_free r kind
  rw [freshId, List.find?_map]
  cases hfind : (List.range' r.size (r.size + 1)).find? ((!r.isTaken ·) ∘ numberedId kind) with
  | none =>
    have htaken := List.find?_eq_none.mp hfind free hmem
    simp [hfree] at htaken
  | some n =>
    obtain ⟨hn, hrange, hbefore⟩ := List.find?_range'_eq_some.mp hfind
    exact counts_of_taken (List.mem_range'_1.mp hrange).1 (by simpa using hbefore)
      (by simpa using hn)

/-- The id that a token gives to a feature: the token, if it is free, or a made-up one for the empty
token. -/
inductive Names (r : Registry α) (kind : Kind) : String → String → Prop where
  | given {token : String} : token ≠ "" → (∀ g ∈ r.features, g.id ≠ token) →
      Names r kind token token
  | madeUp {id : String} : r.Counts kind r.size id → Names r kind "" id

theorem names_iff {token : String} :
    r.Names kind token id ↔ id = r.chooseId kind token ∧ id ≠ "" ∧ ∀ g ∈ r.features, g.id ≠ id := by
  have hmade := counts_freshId r kind
  constructor
  · rintro (⟨hne, hfree⟩ | hid)
    · exact ⟨(if_neg hne).symm, hne, hfree⟩
    · exact ⟨hmade.unique hid, hid.ne_empty, isTaken_eq_false_iff.mp hid.not_taken⟩
  · rintro ⟨rfl, hne, hfree⟩
    by_cases hempty : token = ""
    · subst hempty
      exact .madeUp hmade
    · have htoken : r.chooseId kind token = token := if_neg hempty
      rw [htoken] at hfree ⊢
      exact .given hempty hfree

/-- The token is a number above zero, between blanks. -/
def Numeral (token : String) (n : Nat) : Prop :=
  Text.unsigned? (Text.trim token.toList) = some n ∧ 0 < n

@[simp] theorem number_eq_ok_iff {token : String} :
    number kind token = .ok n ↔ Numeral token n := by
  unfold number positive? Numeral
  cases Text.unsigned? (Text.trim token.toList) with
  | none => simp
  | some k =>
    by_cases hk : 0 < k
    · simp only [Option.filter, hk, decide_true, if_true, Except.ok.injEq, Option.some.injEq]
      constructor
      · rintro rfl
        exact ⟨rfl, hk⟩
      · exact And.left
    · simp only [Option.filter, hk, decide_false, Bool.false_eq_true, if_false, reduceCtorEq,
        false_iff, not_and, Option.some.injEq]
      rintro rfl
      exact hk

theorem resolve_eq_ok_iff {token : String} (hr : Consistent r.declarations) :
    r.resolve token = .ok index ↔ ∃ g, r.features[index]? = some g ∧ g.id = token := by
  rw [← indexOf?_eq_some_iff hr, resolve]
  cases r.indexOf? token <;> simp

/-- What descriptions declare before anyone looks whether the id is free. -/
theorem describe_eq_ok_iff (hr : Consistent r.declarations) {fields : List String} :
    r.describe fields = .ok f ↔ (∃ token dimension n, fields = [token, "input", dimension] ∧
      Numeral dimension n ∧ f = .ofInput (r.chooseId .input token) n) ∨
    ∃ token window statistic source n g, fields = [token, (Kind.windowed statistic).tag, g.id,
      window] ∧ r.features[source]? = some g ∧ Numeral window n ∧
      f = ⟨r.chooseId (.windowed statistic) token, .ofWindow (.blank source n) statistic⟩ := by
  constructor
  · intro h
    unfold describe at h
    split at h
    · cases h
    · rename_i tag htag
      split at h
      · cases h
      · rename_i kind token tag' dimension hkind
        obtain ⟨n, hn, h⟩ := ok_of_bind h
        cases h
        cases htag
        have htag : "input" = tag := Kind.ofTag?_eq_some_iff.mp hkind
        exact .inl ⟨token, dimension, n, by rw [htag], number_eq_ok_iff.mp hn, rfl⟩
      · rename_i kind statistic token tag' source window hkind
        obtain ⟨index, hindex, h⟩ := ok_of_bind h
        obtain ⟨n, hn, hnew⟩ := ok_of_bind h
        cases htag
        obtain ⟨g, hg, rfl⟩ := (resolve_eq_ok_iff hr).mp hindex
        have htag := Kind.ofTag?_eq_some_iff.mp hkind
        exact .inr ⟨token, window, statistic, index, n, g, by rw [htag], hg, number_eq_ok_iff.mp hn,
          (Feature.ofWindow_eq_ok_iff.mp hnew).2⟩
      · cases h
  · rintro (⟨token, dimension, n, rfl, hn, rfl⟩ |
      ⟨token, window, statistic, source, n, g, rfl, hg, hn, rfl⟩)
    · have hkind : Kind.ofTag? "input" = some .input := Kind.ofTag?_tag .input
      simp only [describe, List.getElem?_cons_succ, List.getElem?_cons_zero, hkind,
        number_eq_ok_iff.mpr hn]
      rfl
    · simp only [describe, List.getElem?_cons_succ, List.getElem?_cons_zero, Kind.ofTag?_tag,
        (resolve_eq_ok_iff hr).mpr ⟨g, hg, rfl⟩, number_eq_ok_iff.mpr hn]
      exact Feature.ofWindow_eq_ok_iff.mpr ⟨hn.2, rfl⟩

/-- The fields declare this feature, which has been fed nothing. -/
inductive Accepts (r : Registry α) : List String → Feature α → Prop where
  | input {token dimension id : String} {n : Nat} :
      r.Names .input token id → Numeral dimension n →
      Accepts r [token, "input", dimension] (.ofInput id n)
  | windowed {token window id : String} {statistic : Statistic} {source n : Nat} {g : Feature α} :
      r.Names (.windowed statistic) token id → r.features[source]? = some g → Numeral window n →
      Accepts r [token, (Kind.windowed statistic).tag, g.id, window]
      ⟨id, .ofWindow (.blank source n) statistic⟩

theorem accepts_iff (hr : Consistent r.declarations) {fields : List String} : r.Accepts fields f ↔
    r.describe fields = .ok f ∧ f.id ≠ "" ∧ ∀ g ∈ r.features, g.id ≠ f.id := by
  rw [describe_eq_ok_iff hr]
  constructor
  · rintro (⟨hid, hn⟩ | ⟨hid, hg, hn⟩) <;> obtain ⟨rfl, hnew⟩ := names_iff.mp hid
    · exact ⟨.inl ⟨_, _, _, rfl, hn, rfl⟩, hnew⟩
    · exact ⟨.inr ⟨_, _, _, _, _, _, rfl, hg, hn, rfl⟩, hnew⟩
  · rintro ⟨⟨token, dimension, n, rfl, hn, rfl⟩ |
      ⟨token, window, statistic, source, n, g, rfl, hg, hn, rfl⟩, hnew⟩
    · exact .input (names_iff.mpr ⟨rfl, hnew⟩) hn
    · exact .windowed (names_iff.mpr ⟨rfl, hnew⟩) hg hn

theorem Accepts.source_lt {fields : List String} (h : r.Accepts fields f) :
    ∀ s ∈ f.source?, s < r.size := by
  cases h with
  | input => simp [Feature.source?, Feature.Stage.window?, Feature.ofInput]
  | @windowed _ _ _ statistic source _ _ _ hg =>
    have hlt : source < r.size := length_features r ▸ (List.getElem?_eq_some_iff.mp hg).1
    intro s hs
    cases statistic <;> cases hs <;> exact hlt

/-- A description that is accepted declares the feature behind the others; any other is refused. -/
theorem declare_eq_ok_iff (hr : Consistent r.declarations) {fields : List String} :
    r.declare fields = .ok (index, r') ↔
      ∃ f, r.Accepts fields f ∧ index = r.size ∧ r' = ⟨r.entries.push ⟨f, []⟩⟩ := by
  constructor
  · intro h
    obtain ⟨f, hf, hinsert⟩ := ok_of_bind h
    obtain ⟨hnew, -, hr'⟩ := insert_eq_ok_iff.mp hinsert
    exact ⟨f, (accepts_iff hr).mpr ⟨hf, hnew⟩, hr'⟩
  · rintro ⟨f, hf, hr'⟩
    obtain ⟨hdescribe, hnew⟩ := (accepts_iff hr).mp hf
    rw [declare, hdescribe]
    exact insert_eq_ok_iff.mpr ⟨hnew, hf.source_lt, hr'⟩

variable [Scalar α]

/-- The registries that a new one becomes under any use. A feature that is inserted may have been in
use before. -/
inductive Reachable : Registry α → Prop where
  | empty : Reachable empty
  | insert {r r' : Registry α} {f : Feature α} {index : Nat} :
      Reachable r → r.insert f = .ok (index, r') → Reachable r'
  | declare {r r' : Registry α} {fields : List String} {index : Nat} :
      Reachable r → r.declare fields = .ok (index, r') → Reachable r'
  | feed {r : Registry α} (sample : List α) : Reachable r → Reachable (r.feed sample).2
  | reset {r : Registry α} : Reachable r → Reachable r.reset

theorem Reachable.consistent (hr : r.Reachable) : Consistent r.declarations := by
  induction hr with
  | empty => exact consistent_empty
  | insert _ h ih => exact ih.insert h
  | declare _ h ih =>
    obtain ⟨f, -, hinsert⟩ := ok_of_bind h
    exact ih.insert hinsert
  | @feed r sample _ ih => exact declarations_feed r sample ▸ ih
  | @reset r _ ih => exact declarations_reset r ▸ ih

/-- In a registry after any use a description is accepted if its fields are right, and then declares
the one feature behind all others that they tell. Its id is right if it is empty or free. For the
empty id the count of numbered ids comes to an end, at one that is free. -/
theorem Reachable.declares (hr : r.Reachable) :
    (∀ fields index r', r.declare fields = .ok (index, r') ↔
      ∃ f, r.Accepts fields f ∧ index = r.size ∧ r' = ⟨r.entries.push ⟨f, []⟩⟩) ∧
    (∀ kind token, (∃ id, r.Names kind token id) ↔ token = "" ∨ ∀ g ∈ r.features, g.id ≠ token) ∧
    ∀ kind, (∀ id, r.Counts kind r.size id ↔ id = r.freshId kind) ∧ r.freshId kind ≠ "" ∧
      ∀ g ∈ r.features, g.id ≠ r.freshId kind := by
  refine ⟨fun _ _ _ => declare_eq_ok_iff hr.consistent, fun kind token => ?_, fun kind => ?_⟩
  · have hmade := counts_freshId r kind
    constructor
    · rintro ⟨id, ⟨-, hfree⟩ | -⟩
      · exact .inr hfree
      · exact .inl rfl
    · intro h
      by_cases hempty : token = ""
      · subst hempty
        exact ⟨_, .madeUp hmade⟩
      · exact ⟨token, .given hempty (h.resolve_left hempty)⟩
  · have hmade := counts_freshId r kind
    refine ⟨fun id => ⟨hmade.unique, ?_⟩, hmade.ne_empty, isTaken_eq_false_iff.mp hmade.not_taken⟩
    rintro rfl
    exact hmade

def crowded : Registry Float := ⟨#[⟨.ofInput "x" 1, []⟩, ⟨.ofInput "mean_2" 1, []⟩]⟩

theorem reachable_crowded : crowded.Reachable := by
  have hx : (⟨#[⟨.ofInput "x" 1, []⟩]⟩ : Registry Float).Reachable :=
    .insert .empty (insert_eq_ok_iff.mpr ⟨by simp [features, Feature.ofInput, Registry.empty],
      by simp [Feature.source?, Feature.Stage.window?, Feature.ofInput], rfl, rfl⟩)
  exact .insert hx (insert_eq_ok_iff.mpr ⟨by simp [features, Feature.ofInput],
    by simp [Feature.source?, Feature.Stage.window?, Feature.ofInput], rfl, rfl⟩)

/-- The next number is tried. -/
theorem declares_crowded : crowded.Reachable ∧ crowded.declare ["", "mean", "x", " +3 "] =
    .ok (2, ⟨crowded.entries.push ⟨⟨"mean_3", .ofWindow (.blank 0 3) .mean⟩, []⟩⟩) := by
  have hmade : crowded.Counts (.windowed .mean) 2 "mean_3" :=
    .taken (n := 2) (by decide +kernel) (.free (n := 3) (by decide +kernel))
  have hsource : crowded.features[0]? = some (.ofInput "x" 1) := rfl
  exact ⟨reachable_crowded, (reachable_crowded.declares.1 _ _ _).mpr
    ⟨_, .windowed (.madeUp hmade) hsource ⟨by decide, by decide⟩, rfl, rfl⟩⟩

end Registry
end StreamStats
