import Std.Data.HashMap
import StreamStats.Proofs.Attempts
import StreamStats.Proofs.Calls

/-! A registry kept in three tables that are written to in place: the features, the index of their
ids, and their latest values. Calls that fail keep what they wrote before. The tables stay in step,
no entry is ever missing, and a feature that is refused leaves them as they were. -/

namespace StreamStats

open Feature (Declaration Kind)
open Registry (Addition Answer Call Entry)

structure Tables (α : Type) where
  features : Array (Feature α)
  index : Std.HashMap String Nat
  values : Array (List α)

namespace Tables

variable {α β : Type}

/-- A call on tables. One that ends for want of an entry gives no reason. -/
abbrev Writing (α β : Type) := ExceptT (Option FeatureError) (StateM (Tables α)) β

def empty : Tables α := ⟨#[], ∅, #[]⟩

def lookup (t : Tables α) (id : String) : Option Nat := t.index[id]?

def accept : Except FeatureError β → Writing α β
  | .ok b => return b
  | .error e => throw (some e)

def entry (xs : Array β) (index : Nat) : Writing α β :=
  match xs[index]? with
  | some x => return x
  | none => throw none

def freshId (t : Tables α) (kind : Kind) : String :=
  let numbers := List.range' t.features.size (t.features.size + 1)
  ((numbers.map (Registry.numberedId kind)).find? (!t.index.contains ·)).getD ""

def chooseId (t : Tables α) (kind : Kind) (token : String) : String :=
  if token = "" then t.freshId kind else token

def resolve (t : Tables α) (token : String) : Except FeatureError Nat :=
  match t.lookup token with
  | some index => .ok index
  | none => .error (.unknownReference token)

def describe (t : Tables α) (fields : List String) : Except FeatureError (Feature α) :=
  match fields[1]? with
  | none => .error .missingKind
  | some tag =>
    match Kind.ofTag? tag, fields with
    | none, _ => .error (.unknownKind tag)
    | some .input, [id, _, dimension] => do
      let dimension ← Registry.number .input dimension
      return .ofInput (t.chooseId .input id) dimension
    | some (.windowed statistic), [id, _, source, window] => do
      let source ← t.resolve source
      let window ← Registry.number (.windowed statistic) window
      Feature.ofWindow (t.chooseId (.windowed statistic) id) statistic source window
    | some kind, fields => .error (.fieldCount kind fields.length)

def feature (t : Tables α) : Addition → Except FeatureError (Feature α)
  | .described fields => t.describe fields
  | .input id dimension => .ok (.ofInput id dimension)
  | .windowed id statistic source size => Feature.ofWindow id statistic source size

def accepts (t : Tables α) (f : Feature α) : Except FeatureError Unit :=
  if f.id = "" ∨ t.index.contains f.id then .error (.duplicateId f.id)
  else match f.source?.filter (t.features.size ≤ ·) with
    | some source => .error (.unknownIndex source)
    | none => .ok ()

def insert (f : Feature α) : Writing α Nat := do
  let t ← get
  accept (t.accepts f)
  modify fun t => { t with index := t.index.insert f.id t.features.size }
  modify fun t => { t with features := t.features.push f }
  modify fun t => { t with values := t.values.push [] }
  return t.features.size

def inputs (sample : List α) (f : Feature α) : Writing α (List (List α)) := do
  let t ← get
  match f.source? with
  | none => return [sample]
  | some source => return [← entry t.values source]

def feedAt [Scalar α] (sample : List α) (index : Nat) : Writing α Unit := do
  let t ← get
  let f ← entry t.features index
  let inputs ← inputs sample f
  let (value, f) ← accept (f.feed inputs)
  modify fun t => { t with features := t.features.setIfInBounds index f }
  let _ ← entry t.values index
  modify fun t => { t with values := t.values.setIfInBounds index value }

def feedEach [Scalar α] (sample : List α) : List Nat → Writing α Unit
  | [] => return ()
  | index :: rest => do
    feedAt sample index
    feedEach sample rest

def feed [Scalar α] (sample : List α) : Writing α (List α) := do
  let t ← get
  if t.features.isEmpty then throw (some .emptyRegistry)
  else
    feedEach sample (List.range t.features.size)
    let t ← get
    return t.values.back?.getD []

def reset : Writing α Unit := do
  modify fun t => { t with features := t.features.map Feature.reset }
  modify fun t => { t with values := t.values.map fun _ => [] }

def serve [Scalar α] : Call α → Writing α (Answer α)
  | .add addition => do
    let t ← get
    let f ← accept (t.feature addition)
    return .added (← insert f)
  | .feed sample => return .value (← feed sample)
  | .reset => do
    reset
    return .done

def served [Scalar α] (calls : List (Call α)) : Tables α :=
  calls.foldl (fun t call => ((serve call).run t).2) empty

/-- The tables hold the entries of a registry, and the index finds what a search of them finds. -/
structure Holds (t : Tables α) (r : Registry α) : Prop where
  features_eq : t.features = r.entries.map Entry.feature
  values_eq : t.values = r.entries.map Entry.value
  lookup_eq : ∀ id, t.lookup id = r.indexOf? id

/-- The call on tables answers the same, for the same reason if it fails, and leaves tables of what
is left. -/
def Does (x : Writing α β) (t : Tables α) (r : Except FeatureError β × Registry α) : Prop :=
  ∃ t', x.run t = (r.1.mapError some, t') ∧ t'.Holds r.2

variable {t : Tables α} {r : Registry α} {f : Feature α}

@[simp] theorem run_entry {γ : Type} {xs : Array β} {i : Nat} {x : β} (h : xs[i]? = some x)
    (k : β → Writing α γ) :
    (entry xs i >>= k).run t = (k x).run t := by
  rw [entry, h]
  rfl

@[simp] theorem getElem?_push_append (xs ys : Array β) (x : β) :
    (xs.push x ++ ys)[xs.size]? = some x := by
  rw [Array.getElem?_append_left (by simp), Array.getElem?_push_size]

theorem set_push_append (xs ys : Array β) (x y : β) :
    (xs.push x ++ ys).setIfInBounds xs.size y = xs.push y ++ ys := by
  rw [Array.setIfInBounds_append_left (by simp)]
  congr 1
  exact Array.ext' (by simp)

theorem Holds.size_eq (h : t.Holds r) : t.features.size = r.size := by
  rw [h.features_eq, Array.size_map, Registry.size]

theorem Holds.contains_eq (h : t.Holds r) (id : String) : t.index.contains id = r.isTaken id := by
  rw [Std.HashMap.contains_eq_isSome_getElem?, ← lookup, h.lookup_eq, Registry.isTaken]

theorem Holds.describe_eq (h : t.Holds r) (fields : List String) :
    t.describe fields = r.describe fields := by
  have hfresh : ∀ kind, t.freshId kind = r.freshId kind := fun kind => by
    simp only [freshId, Registry.freshId, h.size_eq, h.contains_eq]
  have hchoose : ∀ kind token, t.chooseId kind token = r.chooseId kind token := fun kind token => by
    rw [chooseId, Registry.chooseId, hfresh]
  have hresolve : ∀ token, t.resolve token = r.resolve token := fun token => by
    rw [resolve, h.lookup_eq]
    rfl
  simp only [describe, hchoose, hresolve]
  rfl

theorem Holds.feature_eq (h : t.Holds r) (addition : Addition) :
    t.feature addition = addition.feature r := by
  cases addition with
  | described fields => exact h.describe_eq fields
  | input | windowed => rfl

@[simp] theorem holds_empty : (empty : Tables α).Holds Registry.empty :=
  ⟨by simp [empty, Registry.empty], by simp [empty, Registry.empty],
    fun id => by simp [lookup, empty, Registry.indexOf?, Registry.empty]⟩

theorem Holds.push (h : t.Holds r) (hnew : r.isTaken f.id = false) :
    Holds ⟨t.features.push f, t.index.insert f.id t.features.size, t.values.push []⟩
      ⟨r.entries.push ⟨f, []⟩⟩ := by
  refine ⟨by simp [h.features_eq], by simp [h.values_eq], fun id => ?_⟩
  have hlookup := h.lookup_eq id
  have hnone : r.indexOf? f.id = none := by simpa [Registry.isTaken] using hnew
  simp only [lookup, Registry.indexOf?] at hlookup hnone ⊢
  rw [Std.HashMap.getElem?_insert, Array.findIdx?_push, hlookup, h.size_eq]
  by_cases hid : f.id = id
  · subst hid
    simp [hnone, Registry.size]
  · simp [hid]

theorem Holds.set {fed rest : Array (Entry α)} {e e' : Entry α} (h : t.Holds ⟨fed.push e ++ rest⟩)
    (hid : e'.feature.id = e.feature.id) :
    Holds ⟨t.features.setIfInBounds fed.size e'.feature, t.index,
      t.values.setIfInBounds fed.size e'.value⟩ ⟨fed.push e' ++ rest⟩ := by
  refine ⟨?_, ?_, fun id => ?_⟩
  · rw [h.features_eq, Array.map_append, Array.map_push, ← Array.size_map (f := Entry.feature),
      set_push_append, Array.map_append, Array.map_push]
  · rw [h.values_eq, Array.map_append, Array.map_push, ← Array.size_map (f := Entry.value),
      set_push_append, Array.map_append, Array.map_push]
  · have hlookup := h.lookup_eq id
    simp only [Registry.indexOf?, Array.findIdx?_append, Array.findIdx?_push, Array.size_push, hid]
      at hlookup ⊢
    exact hlookup

/-- What is refused is refused before anything is written. -/
@[simp] theorem run_insert (t : Tables α) (f : Feature α) :
    (insert f).run t = match t.accepts f with
    | .ok () =>
      (.ok t.features.size, ⟨t.features.push f, t.index.insert f.id t.features.size,
        t.values.push []⟩)
    | .error e => (.error (some e), t) := by
  show ((accept (t.accepts f) >>= _ : Writing α Nat)).run t = _
  cases t.accepts f <;> rfl

theorem insert_does (h : t.Holds r) (f : Feature α) :
    Does (insert f) t (match r.insert f with
      | .ok (index, r') => (.ok index, r')
      | .error e => (.error e, r)) := by
  rw [Does, run_insert, accepts, Registry.insert, h.contains_eq, h.size_eq]
  by_cases hid : f.id = "" ∨ r.isTaken f.id
  · rw [if_pos hid, if_pos hid]
    exact ⟨t, rfl, h⟩
  · rw [if_neg hid, if_neg hid]
    cases f.source?.filter (r.size ≤ ·) with
    | some source => exact ⟨t, rfl, h⟩
    | none =>
      have hnew : r.isTaken f.id = false := by simpa using (not_or.mp hid).2
      exact ⟨_, rfl, h.size_eq ▸ h.push hnew⟩

theorem run_inputs {fed rest : Array (Entry α)} (h : t.Holds ⟨fed ++ rest⟩)
    (hsource : ∀ s ∈ f.source?, s < fed.size) (sample : List α) :
    (inputs sample f).run t = (.ok (Registry.inputs fed sample f), t) := by
  show (match f.source? with
    | none => return [sample]
    | some source => do return [← entry t.values source] : Writing α (List (List α))).run t = _
  rw [Registry.inputs]
  cases hf : f.source? with
  | none => rfl
  | some source =>
    have hlt := hsource source hf
    have hentry : t.values[source]? = some fed[source].value := by
      rw [h.values_eq, Array.getElem?_map, Array.getElem?_append_left hlt,
        Array.getElem?_eq_getElem hlt]
      rfl
    simp only [run_entry hentry, Array.getElem?_eq_getElem hlt]
    rfl

variable [Scalar α]

/-- A feature is fed what it reads, and its entries are written. -/
theorem feedAt_does {fed rest : Array (Entry α)} {e : Entry α} (h : t.Holds ⟨fed.push e ++ rest⟩)
    (hsource : ∀ s ∈ e.feature.source?, s < fed.size) (sample : List α) :
    Does (feedAt sample fed.size) t
      (match e.feature.feed (Registry.inputs fed sample e.feature) with
      | .ok (value, f) => (.ok (), ⟨fed.push ⟨f, value⟩ ++ rest⟩)
      | .error err => (.error err, ⟨fed.push e ++ rest⟩)) := by
  have hf : t.features[fed.size]? = some e.feature := by
    rw [h.features_eq, Array.getElem?_map, getElem?_push_append, Option.map_some]
  have hv : t.values[fed.size]? = some e.value := by
    rw [h.values_eq, Array.getElem?_map, getElem?_push_append, Option.map_some]
  have hsplit : t.Holds ⟨fed ++ (#[e] ++ rest)⟩ := by simpa using h
  have hinputs : (inputs sample e.feature).run t = (.ok (Registry.inputs fed sample e.feature),
      t) := run_inputs hsplit hsource sample
  have hfeed : (feedAt sample fed.size).run t =
      match e.feature.feed (Registry.inputs fed sample e.feature) with
      | .ok (value, f) =>
        (.ok (), ⟨t.features.setIfInBounds fed.size f, t.index,
          t.values.setIfInBounds fed.size value⟩)
      | .error err => (.error (some err), t) := by
    show (entry t.features fed.size >>= _ : Writing α Unit).run t = _
    rw [run_entry hf, ExceptT.run_bind_state, hinputs]
    dsimp only
    cases e.feature.feed (Registry.inputs fed sample e.feature) with
    | error err => rfl
    | ok p =>
      exact run_entry (t := { t with features := t.features.setIfInBounds fed.size p.2 }) hv _
  rw [Does, hfeed]
  cases hp : e.feature.feed (Registry.inputs fed sample e.feature) with
  | error err => exact ⟨t, rfl, h⟩
  | ok p =>
    have hid : (⟨p.2, p.1⟩ : Entry α).feature.id = e.feature.id :=
      congrArg Declaration.id (Feature.declaration_feed hp)
    exact ⟨_, rfl, h.set hid⟩

theorem feedEach_does (sample : List α) {fed : Array (Entry α)} {rest : List (Entry α)}
    (h : t.Holds ⟨fed ++ rest.toArray⟩)
    (hsource : ∀ (i : Nat) (e : Entry α), rest[i]? = some e → ∀ s ∈ e.feature.source?,
      s < fed.size + i) :
    Does (feedEach sample (List.range' fed.size rest.length)) t
      ((Registry.feedAll sample fed rest).1, ⟨(Registry.feedAll sample fed rest).2⟩) := by
  induction rest generalizing t fed with
  | nil => exact ⟨t, rfl, by simpa [Registry.feedAll] using h⟩
  | cons e rest ih =>
    have hstep : t.Holds ⟨fed.push e ++ rest.toArray⟩ := by simpa using h
    obtain ⟨t', hrun, ht'⟩ := feedAt_does hstep (hsource 0 e rfl) sample
    rw [Does, List.length_cons, List.range'_succ, feedEach, ExceptT.run_bind_state, hrun,
      Registry.feedAll]
    cases hfed : e.feature.feed (Registry.inputs fed sample e.feature) with
    | error err =>
      rw [hfed] at ht'
      exact ⟨t', rfl, by simpa using ht'⟩
    | ok p =>
      rw [hfed] at ht'
      have hrest := ih ht' fun i e he s hs => by
        have hlt := hsource (i + 1) e he s hs
        rw [Array.size_push]
        omega
      rwa [Array.size_push] at hrest

theorem feed_does (h : t.Holds r) (hr : Registry.Consistent r.declarations) (sample : List α) :
    Does (feed sample) t (r.feed sample) := by
  have hempty : t.features.isEmpty = r.entries.isEmpty := by
    show decide (t.features.size = 0) = decide (r.entries.size = 0)
    rw [h.size_eq, Registry.size]
  have hsource : ∀ (i : Nat) (e : Entry α), r.entries.toList[i]? = some e → ∀ s ∈ e.feature.source?,
      s < (#[] : Array (Entry α)).size + i := fun i e he s hs => by
    rw [Array.size_empty, Nat.zero_add]
    exact hr.source_lt i e.feature.declaration
      (by simp [Registry.declarations, Registry.features, he]) s hs
  have hstart : t.Holds ⟨#[] ++ r.entries.toList.toArray⟩ := by simpa using h
  obtain ⟨t', hrun, ht'⟩ := feedEach_does sample hstart hsource
  rw [Array.size_empty, ← List.range_eq_range', Array.length_toList, ← Registry.size, ← h.size_eq]
    at hrun
  have hfeed : (feed sample).run t = if t.features.isEmpty then (.error (some .emptyRegistry), t)
      else (feedEach sample (List.range t.features.size) >>= fun _ => do
        let t ← get
        return t.values.back?.getD [] : Writing α (List α)).run t := by
    show (if t.features.isEmpty then _ else _ : Writing α (List α)).run t = _
    cases t.features.isEmpty <;> rfl
  rw [Does, hfeed, hempty, Registry.feed, ExceptT.run_bind_state, hrun]
  cases r.entries.isEmpty with
  | true => exact ⟨t, rfl, h⟩
  | false =>
    refine ⟨t', ?_, ht'⟩
    have hlast : t'.values.back? =
        (Registry.feedAll sample #[] r.entries.toList).2.back?.map Entry.value := by
      rw [ht'.values_eq, Array.back?_map]
    cases hfed : (Registry.feedAll sample #[] r.entries.toList).1 with
    | error e => simp [hfed, Except.map, Except.mapError]
    | ok u =>
      simp only [hfed, Except.map, Except.mapError, ← hlast]
      rfl

omit [Scalar α] in
theorem reset_does (h : t.Holds r) : Does reset t (.ok (), r.reset) := by
  refine ⟨_, rfl, ?_, ?_, fun id => ?_⟩
  · simp [h.features_eq, Registry.reset]
  · simp [h.values_eq, Registry.reset]
  · have hlookup := h.lookup_eq id
    simp only [Registry.indexOf?, Registry.reset, Array.findIdx?_map] at hlookup ⊢
    exact hlookup

omit [Scalar α] in
theorem Does.map {γ : Type} {x : Writing α β} {p : Except FeatureError β × Registry α}
    (h : Does x t p) (g : β → γ) :
    Does (x >>= fun b => pure (g b)) t (p.1.map g, p.2) := by
  obtain ⟨t', hrun, ht'⟩ := h
  refine ⟨t', ?_, ht'⟩
  rw [ExceptT.run_bind_state, hrun]
  cases p.1 <;> rfl

@[simp] theorem run_serve_add (t : Tables α) (addition : Addition) : (serve (.add addition)).run t =
    match t.feature addition with
    | .ok f => (insert f >>= fun index => return .added index : Writing α (Answer α)).run t
    | .error e => (.error (some e), t) := by
  show (accept (t.feature addition) >>= _ : Writing α (Answer α)).run t = _
  cases t.feature addition <;> rfl

theorem serve_does (h : t.Holds r) (hr : Registry.Consistent r.declarations) (call : Call α) :
    Does (serve call) t (r.answer call) := by
  cases call with
  | add addition =>
    rw [Does, run_serve_add, h.feature_eq, Registry.answer, Registry.add]
    cases addition.feature r with
    | error e => exact ⟨t, rfl, h⟩
    | ok f =>
      have hdoes := (insert_does h f).map (Answer.added (α := α))
      have hinsert : (Except.ok f >>= r.insert) = r.insert f := rfl
      rw [hinsert]
      cases hf : r.insert f <;> rw [hf] at hdoes <;> exact hdoes
  | feed sample => exact (feed_does h hr sample).map Answer.value
  | reset => exact (reset_does h).map fun _ => Answer.done

/-- The tables are filled alike, and the index gives the position of every id. Every feature has an
id of its own and reads an earlier one. -/
structure InStep (t : Tables α) : Prop where
  named : ∀ f ∈ t.features, f.id ≠ ""
  nodup : (t.features.toList.map Feature.id).Nodup
  lookup_iff : ∀ (id : String) (i : Nat),
    t.lookup id = some i ↔ ∃ f, t.features[i]? = some f ∧ f.id = id
  source_lt : ∀ (i : Nat) (f : Feature α), t.features[i]? = some f → ∀ s ∈ f.source?, s < i
  size_eq : t.values.size = t.features.size

def declarations (t : Tables α) : List Declaration := t.features.toList.map Feature.declaration

omit [Scalar α] in
theorem Holds.declarations_eq (h : t.Holds r) : t.declarations = r.declarations := by
  rw [declarations, h.features_eq, Array.toList_map, Registry.declarations, Registry.features]

omit [Scalar α] in
theorem Holds.inStep (h : t.Holds r) (hr : Registry.Consistent r.declarations) : t.InStep := by
  rw [← h.declarations_eq] at hr
  refine ⟨fun f hf => ?_, ?_, fun id i => ?_, fun i f hf => ?_, ?_⟩
  · exact hr.named _ (List.mem_map_of_mem (by simpa using hf))
  · have hnodup := hr.nodup
    rwa [declarations, List.map_map] at hnodup
  · rw [h.lookup_eq, Registry.indexOf?_eq_some_iff (h.declarations_eq ▸ hr), h.features_eq]
    simp [Registry.features]
  · exact hr.source_lt i f.declaration (by simp [declarations, hf])
  · rw [h.features_eq, h.values_eq, Array.size_map, Array.size_map]

@[simp] theorem served_concat (calls : List (Call α)) (call : Call α) :
    served (calls ++ [call]) = ((serve call).run (served calls)).2 := List.foldl_append

/-- Whatever calls there were, the tables hold what the registry holds after them. -/
@[simp] theorem served_holds (calls : List (Call α)) :
    (served calls).Holds (Registry.after calls) := by
  induction calls using List.reverseRecOn with
  | nil => exact holds_empty
  | append_singleton calls call ih =>
    obtain ⟨t', hrun, ht'⟩ := serve_does ih (Registry.consistent_after calls) call
    rw [served_concat, Registry.after_concat, hrun]
    exact ht'

theorem serve_add_of_error {e : Option FeatureError} {addition : Addition}
    (h : ((serve (.add addition)).run t).1 = .error e) : ((serve (.add addition)).run t).2 = t := by
  rw [run_serve_add] at h ⊢
  cases hf : t.feature addition with
  | error e => rfl
  | ok f =>
    simp only [hf, ExceptT.run_bind_state, run_insert] at h ⊢
    cases haccepts : t.accepts f with
    | error e => rfl
    | ok u =>
      rw [haccepts] at h
      cases h

/-- Whatever calls there were and whichever of them failed, the tables are in step. The next call
answers as one on the entries of the registry, and never misses an entry. A feature that is refused
leaves the tables as they were, and what was accepted keeps its index and what it was declared
as. -/
theorem served_inStep (calls : List (Call α)) :
    (served calls).InStep ∧ (served calls).Holds (Registry.after calls) ∧
    (∀ call, Does (serve call) (served calls) ((Registry.after calls).answer call)) ∧
    (∀ addition e, ((serve (.add addition)).run (served calls)).1 = .error e →
      ((serve (.add addition)).run (served calls)).2 = served calls) ∧
    ∀ more, (served calls).declarations <+: (served (calls ++ more)).declarations := by
  have hholds := served_holds calls
  have hconsistent := Registry.consistent_after calls
  refine ⟨hholds.inStep hconsistent, hholds, serve_does hholds hconsistent, fun _ _ =>
    serve_add_of_error, fun more => ?_⟩
  rw [hholds.declarations_eq, (served_holds (calls ++ more)).declarations_eq]
  exact Registry.declarations_after calls more

end Tables
end StreamStats
