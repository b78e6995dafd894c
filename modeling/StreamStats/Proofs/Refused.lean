import StreamStats.Proofs.Attempts
import StreamStats.Proofs.Calls
import StreamStats.Proofs.Incremental

/-! Features that are written to in place: the ring of samples, the width of the values and the
running sums, each at its time. A call that ends early keeps what it wrote before. Nothing is
written before all that can be refused is refused, and no index is ever out of range. -/

namespace StreamStats

open ExceptT

namespace Feature

structure Parts (α : Type) where
  history : History α
  /-- The width of the values, once there are any. -/
  width : Option Nat
  sum : List α
  sumSquares : List α

namespace Parts

variable {α β : Type}

/-- A call on the parts of a feature. One that ends at an index out of range gives no reason. -/
abbrev Writing (α β : Type) := ExceptT (Option FeatureError) (StateM (Parts α)) β

def item : Option β → Writing α β
  | some b => return b
  | none => throw none

def checkWidth (sample : List α) : Writing α Unit := do
  let p ← get
  match p.history.admits sample.length with
  | .ok _ => return ()
  | .error e => throw (some (.history e))

def validate (id : String) (sample : List α) : Writing α Unit :=
  if sample = [] then throw (some (.emptySample id)) else checkWidth sample

def delayed (age : Nat) : Writing α (Option (List α)) := do
  let p ← get
  let h := p.history
  if h.length = 0 ∨ h.total ≤ age then return none
  else return some (←
    item h.slots[(h.next + h.capacity - 1 - min age (h.length - 1)) % h.capacity]?)

def recent : Writing α (List (List α)) := do
  let p ← get
  return (← (List.range p.history.length).mapM delayed).filterMap fun found => found

def onHistory (f : History α → History α) : Writing α Unit :=
  modify fun p => { p with history := f p.history }

def push (sample : List α) : Writing α Unit := do
  -- checked once more; from here on a refusal would come too late
  checkWidth sample
  onHistory fun h => { h with width := some sample.length }
  let p ← get
  let _ ← item p.history.slots[p.history.next]?
  onHistory fun h => { h with slots := h.slots.modify h.next fun _ => [] }
  onHistory fun h => { h with slots := h.slots.modify h.next (· ++ sample) }
  onHistory fun h => { h with next := (h.next + 1) % h.capacity }
  onHistory fun h => { h with length := min (h.length + 1) h.capacity }
  onHistory fun h => { h with total := h.total + 1 }
  modify fun p => { p with width := some sample.length }

def clear : Writing α Unit := do
  onHistory fun h => { h with slots := h.slots.map fun _ => [] }
  onHistory fun h => { h with next := 0 }
  onHistory fun h => { h with length := 0 }
  onHistory fun h => { h with width := none }
  onHistory fun h => { h with total := 0 }
  modify fun p => { p with width := none }

variable [Scalar α]

def departing (size width : Nat) : Writing α (List α) := do
  return fit width ((← delayed (size - 1)).getD [])

def moments (size width : Nat) : Writing α (Moments α) :=
  if size = 0 ∨ width = 0 then return ⟨[], []⟩
  else do
    let p ← get
    let n : α := Scalar.ofNat size
    let absent : α := Scalar.ofNat (size - p.history.length)
    let mean := (Moments.sum width (← recent)).map (· / n)
    let variance := (Moments.deviation mean (mean.map fun m => absent * m * m) (← recent)).map
      (· / n)
    return ⟨mean, variance⟩

/-- Bring the sum up to date all along, and return the mean. -/
def update (n : α) (sample old : List α) : Writing α (List α) := do
  modify fun p => { p with sum := zipKeep (· + ·) p.sum (List.zipWith (· - ·) sample old) }
  let p ← get
  return List.zipWith (fun sum _ => sum / n) p.sum (sample.zip old)

/-- Bring both sums up to date at an index, and return the variance there. -/
def updateAt (n : α) (sample old : List α) (index : Nat) : Writing α α := do
  let new ← item sample[index]?
  let old ← item old[index]?
  let p ← get
  let sum ← item p.sum[index]?
  modify fun p => { p with sum := p.sum.set index (sum + (new - old)) }
  let p ← get
  let squares ← item p.sumSquares[index]?
  modify fun p =>
    { p with sumSquares := p.sumSquares.set index (squares + (new * new - old * old)) }
  let p ← get
  let sum ← item p.sum[index]?
  let squares ← item p.sumSquares[index]?
  return (squares - sum * sum / n) / n

def take (id : String) (number : Nat) (sample : List α) : Kind → Writing α (List α)
  | .input =>
    if sample.length = number then return sample
    else throw (some (.sampleWidth id number sample.length))
  | .windowed .mean => do
    validate id sample
    push sample
    return (← moments number sample.length).mean
  | .windowed .incrementalMean => do
    validate id sample
    let old ← departing number sample.length
    push sample
    modify fun p => { p with sum := fit sample.length p.sum }
    update (Scalar.ofNat number) sample old
  | .windowed .variance => do
    validate id sample
    push sample
    return (← moments number sample.length).variance
  | .windowed .incrementalVariance => do
    validate id sample
    let old ← departing number sample.length
    push sample
    modify fun p => { p with sum := fit sample.length p.sum }
    modify fun p => { p with sumSquares := fit sample.length p.sumSquares }
    (List.range sample.length).mapM (updateAt (Scalar.ofNat number) sample old)

def feed (d : Declaration) : List (List α) → Writing α (List α)
  | [sample] => take d.id d.number sample d.kind
  | inputs => throw (some (.inputCount d.id inputs.length))

omit [Scalar α] in
def reset : Kind → Writing α Unit
  | .input => return ()
  | .windowed .mean | .windowed .variance => clear
  | .windowed .incrementalMean => do
    clear
    modify fun p => { p with sum := [] }
  | .windowed .incrementalVariance => do
    clear
    modify fun p => { p with sum := [] }
    modify fun p => { p with sumSquares := [] }

/-- The parts of a feature. An input has none that changes. -/
def ofStage : Stage α → Parts α
  | .input _ => ⟨⟨#[], 0, 0, none, 0⟩, none, [], []⟩
  | .mean w | .variance w => ⟨w.history, w.history.width, [], []⟩
  | .incrementalMean w sum => ⟨w.history, w.history.width, sum, []⟩
  | .incrementalVariance w sum sumSquares => ⟨w.history, w.history.width, sum, sumSquares⟩

section Run

variable {p : Parts α} {past : List (List α)} {sample : List α} {id : String}

omit [Scalar α]

theorem run_item {o : Option β} {b : β} (ho : o = some b) :
    (item o : Writing α β).run p = (.ok b, p) := by
  rw [ho]
  rfl

@[simp] theorem run_onHistory (f : History α → History α) :
    (onHistory f).run p = (.ok (), { p with history := f p.history }) := rfl

@[simp] theorem run_checkWidth :
    (checkWidth sample).run p = match p.history.admits sample.length with
    | .ok _ => (.ok (), p)
    | .error e => (.error (some (.history e)), p) := by
  show (match p.history.admits sample.length with
    | .ok _ => (pure () : Writing α Unit)
    | .error e => throw (some (FeatureError.history e))).run p = _
  cases p.history.admits sample.length <;> rfl

/-- What is refused is refused here, with nothing written. -/
theorem run_validate (hh : p.history.Holds past) :
    (validate id sample).run p = match refusal? id past sample with
    | some e => (.error (some e), p)
    | none => (.ok (), p) := by
  unfold validate refusal?
  split
  · rfl
  · rw [run_checkWidth, History.admits, hh.width_eq]
    cases past with
    | nil => rfl
    | cons last past => by_cases hw : last.length = sample.length <;> simp [widthOf, hw]

theorem run_delayed (hh : p.history.Holds past) (age : Nat) :
    (delayed age).run p = (.ok (p.history.back? age), p) := by
  unfold delayed
  rw [run_bind_of_ok run_get, History.back?]
  dsimp only
  split
  · rfl
  · have hlt := Nat.mod_lt (p.history.next + p.history.capacity - 1 - min age
      (p.history.length - 1)) (Nat.zero_lt_of_lt hh.next_lt)
    have hslot := @Array.getElem?_eq_getElem _ p.history.slots _ hlt
    rw [run_bind_of_ok (run_item hslot), hslot]
    rfl

theorem run_recent (hh : p.history.Holds past) : (recent).run p = (.ok p.history.recent, p) := by
  have hall : ((List.range p.history.length).mapM delayed).run p =
      (.ok ((List.range p.history.length).map p.history.back?), p) :=
    run_of_succeeds (succeeds_mapM (fun age _ => run_delayed hh age) ⟨rfl, rfl⟩)
  rw [recent, run_bind_of_ok run_get, run_bind_of_ok hall, List.filterMap_map]
  rfl

@[simp] theorem modify_modify (slots : Array (List α)) (i : Nat) (sample : List α) :
    (slots.modify i fun _ => []).modify i (· ++ sample) = slots.setIfInBounds i sample := by
  refine Array.ext (by simp) fun j hj _ => ?_
  rw [Array.getElem_modify, Array.getElem_modify, Array.getElem_setIfInBounds (by simpa using hj)]
  by_cases hij : i = j <;> simp [hij]

theorem run_push {h : History α} (hh : p.history.Holds past)
    (hrecord : p.history.record sample = .ok h) :
    (push sample).run p = (.ok (), { p with history := h, width := some sample.length }) := by
  obtain ⟨⟨⟩, hadmits, hrecord⟩ := ok_of_bind hrecord
  let parts (h : History α) : Parts α := { p with history := h }
  -- the ring after one write after the other
  let h₁ := { p.history with width := some sample.length }
  let h₂ := { h₁ with slots := h₁.slots.modify h₁.next fun _ => [] }
  let h₃ := { h₂ with slots := h₂.slots.modify h₂.next (· ++ sample) }
  let h₄ := { h₃ with next := (h₃.next + 1) % h₃.capacity }
  let h₅ := { h₄ with length := min (h₄.length + 1) h₄.capacity }
  let h₆ := { h₅ with total := h₅.total + 1 }
  have hcheck : (checkWidth sample).run p = (.ok (), p) := by rw [run_checkWidth, hadmits]
  have hwidth : (onHistory fun h => { h with width := some sample.length }).run p =
      (.ok (), parts h₁) := run_onHistory _
  have hslot : (item (parts h₁).history.slots[(parts h₁).history.next]?).run (parts h₁) = _ :=
    run_item (Array.getElem?_eq_getElem hh.next_lt)
  have hempty : (onHistory fun h => { h with slots := h.slots.modify h.next fun _ => [] }).run
    (parts h₁) = (.ok (), parts h₂) := run_onHistory _
  have hfill : (onHistory fun h => { h with slots := h.slots.modify h.next (· ++ sample) }).run
    (parts h₂) = (.ok (), parts h₃) := run_onHistory _
  have hnext : (onHistory fun h => { h with next := (h.next + 1) % h.capacity }).run (parts h₃) =
      (.ok (), parts h₄) := run_onHistory _
  have hlength : (onHistory fun h => { h with length := min (h.length + 1) h.capacity }).run
    (parts h₄) = (.ok (), parts h₅) := run_onHistory _
  have htotal : (onHistory fun h => { h with total := h.total + 1 }).run (parts h₅) =
      (.ok (), parts h₆) := run_onHistory _
  have hring : h₆ = h := by
    cases hrecord
    simp [h₆, h₅, h₄, h₃, h₂, h₁, History.capacity]
  rw [push, run_bind_of_ok hcheck, run_bind_of_ok hwidth, run_bind_of_ok run_get,
    run_bind_of_ok hslot, run_bind_of_ok hempty, run_bind_of_ok hfill, run_bind_of_ok hnext,
    run_bind_of_ok hlength, run_bind_of_ok htotal, run_modify, hring]

@[simp] theorem run_clear :
    (clear).run p = (.ok (), { p with history := p.history.clear, width := none }) := by
  let parts (h : History α) : Parts α := { p with history := h }
  let h₁ : History α := { p.history with slots := p.history.slots.map fun _ => [] }
  let h₂ := { h₁ with next := 0 }
  let h₃ := { h₂ with length := 0 }
  let h₄ := { h₃ with width := none }
  let h₅ := { h₄ with total := 0 }
  have hslots : (onHistory fun h => { h with slots := h.slots.map fun _ => [] }).run p =
      (.ok (), parts h₁) := run_onHistory _
  have hnext : (onHistory fun h => { h with next := 0 }).run (parts h₁) = (.ok (), parts h₂) :=
    run_onHistory _
  have hlength : (onHistory fun h => { h with length := 0 }).run (parts h₂) = (.ok (), parts h₃) :=
    run_onHistory _
  have hwidth : (onHistory fun h => { h with width := none }).run (parts h₃) = (.ok (), parts h₄) :=
    run_onHistory _
  have htotal : (onHistory fun h => { h with total := 0 }).run (parts h₄) = (.ok (), parts h₅) :=
    run_onHistory _
  have hring : h₅ = p.history.clear := by
    simp [h₅, h₄, h₃, h₂, h₁, History.clear, History.capacity, Array.map_const']
  rw [clear, run_bind_of_ok hslots, run_bind_of_ok hnext, run_bind_of_ok hlength,
    run_bind_of_ok hwidth, run_bind_of_ok htotal, run_modify, hring]

end Run

def updated (count : Nat) (new old : List β) : List β := new.take count ++ old.drop count

section Updated

variable {new old : List β} {i : Nat}

@[simp] theorem getElem?_updated (hi : i ≤ new.length) : (updated i new old)[i]? = old[i]? := by
  have hlen : (new.take i).length = i := by rw [List.length_take, Nat.min_eq_left hi]
  rw [updated, List.getElem?_append_right (by omega), hlen, Nat.sub_self, List.getElem?_drop,
    Nat.add_zero]

@[simp] theorem set_updated {b : β} (hi : i < old.length) (hb : new[i]? = some b) :
    (updated i new old).set i b = updated (i + 1) new old := by
  have hlen : (new.take i).length = i := by
    rw [List.length_take, Nat.min_eq_left (Nat.le_of_lt (List.getElem?_eq_some_iff.mp hb).1)]
  rw [updated, List.set_append_right _ _ (by omega), hlen, Nat.sub_self,
    List.drop_eq_getElem_cons hi, List.set_cons_zero, updated, List.take_add_one, hb]
  simp

theorem updated_length (hlength : new.length = old.length) : updated new.length new old = new := by
  rw [updated, List.take_length, hlength, List.drop_length, List.append_nil]

end Updated

variable {p : Parts α} {past : List (List α)} {sample old : List α} {id : String} {size width : Nat}
    {n : α}

theorem run_departing (hh : p.history.Holds past) :
    (departing size width).run p = (.ok (fit width ((p.history.back? (size - 1)).getD [])), p) := by
  rw [departing, run_bind_of_ok (run_delayed hh _)]
  rfl

theorem run_moments (hh : p.history.Holds past) :
    (moments size width).run p = (.ok (Moments.ofHistory p.history size width), p) := by
  unfold moments Moments.ofHistory
  split
  · rfl
  · have hrecent := run_recent hh
    rw [run_bind_of_ok run_get, run_bind_of_ok hrecent, run_bind_of_ok hrecent]
    rfl

theorem run_update (hold : old.length = sample.length) (hsum : p.sum.length = sample.length)
    {sum : List α} (hsum' : sum = List.zipWith (· + ·) p.sum (List.zipWith (· - ·) sample old)) :
    (update n sample old).run p = (.ok (sum.map (· / n)), { p with sum }) := by
  have hkeep : zipKeep (· + ·) p.sum (List.zipWith (· - ·) sample old) = sum :=
    (zipKeep_eq_zipWith _ (by simp [hold, hsum])).trans hsum'.symm
  have hlen : sum.length = sample.length := by simp [hsum', hsum, hold]
  have hmean : List.zipWith (fun sum _ => sum / n) sum (sample.zip old) = sum.map (· / n) :=
    List.ext_getElem (by simp [hlen, hold]) (by simp)
  rw [update, run_bind_of_ok (run_modify _), run_bind_of_ok run_get, hkeep, hmean]
  rfl

theorem run_updateAt {i : Nat} {x y s q : α} (hx : sample[i]? = some x) (hy : old[i]? = some y)
    (hs : p.sum[i]? = some s) (hq : p.sumSquares[i]? = some q) :
    (updateAt n sample old i).run p =
      (.ok ((q + (x * x - y * y) - (s + (x - y)) * (s + (x - y)) / n) / n),
        { p with
          sum := p.sum.set i (s + (x - y))
          sumSquares := p.sumSquares.set i (q + (x * x - y * y)) }) := by
  have hs' : (p.sum.set i (s + (x - y)))[i]? = some (s + (x - y)) :=
    List.getElem?_set_self (List.getElem?_eq_some_iff.mp hs).1
  have hq' : (p.sumSquares.set i (q + (x * x - y * y)))[i]? = some (q + (x * x - y * y)) :=
    List.getElem?_set_self (List.getElem?_eq_some_iff.mp hq).1
  let p₁ : Parts α := { p with sum := p.sum.set i (s + (x - y)) }
  let p₂ : Parts α := { p₁ with sumSquares := p₁.sumSquares.set i (q + (x * x - y * y)) }
  have hsum : (modify fun p => { p with sum := p.sum.set i (s + (x - y)) } : Writing α PUnit).run
      p = (.ok ⟨⟩, p₁) := run_modify _
  have hsquares : (modify fun p =>
    { p with sumSquares := p.sumSquares.set i (q + (x * x - y * y)) } :
      Writing α PUnit).run p₁ = (.ok ⟨⟩, p₂) := run_modify _
  rw [updateAt, run_bind_of_ok (run_item hx), run_bind_of_ok (run_item hy), run_bind_of_ok run_get,
    run_bind_of_ok (run_item hs), run_bind_of_ok hsum, run_bind_of_ok run_get,
    run_bind_of_ok (run_item hq), run_bind_of_ok hsquares, run_bind_of_ok run_get,
    run_bind_of_ok (run_item hs'), run_bind_of_ok (run_item hq')]
  rfl

/-- Index by index, both sums and the variances are those of the lists as a whole. -/
theorem run_updateEach (hold : old.length = sample.length) (hsum : p.sum.length = sample.length)
    (hsquares : p.sumSquares.length = sample.length) {sum sumSquares : List α}
    (hsum' : sum = List.zipWith (· + ·) p.sum (List.zipWith (· - ·) sample old))
    (hsquares' : sumSquares =
      List.zipWith (· + ·) p.sumSquares
        (List.zipWith (fun new old => new * new - old * old) sample old)) :
    ((List.range sample.length).mapM (updateAt n sample old)).run p =
      (.ok (List.zipWith (fun s q => (q - s * s / n) / n) sum sumSquares),
        { p with sum, sumSquares }) := by
  have hlen : sum.length = sample.length := by simp [hsum', hsum, hold]
  have hlen' : sumSquares.length = sample.length := by simp [hsquares', hsquares, hold]
  let values := List.zipWith (fun s q => (q - s * s / n) / n) sum sumSquares
  -- the indices so far are up to date, all others as before
  let upTo (k : Nat) : Parts α :=
    { p with sum := updated k sum p.sum, sumSquares := updated k sumSquares p.sumSquares }
  have hstep : ∀ k < sample.length, ∃ v, values[k]? = some v ∧
      (updateAt n sample old k).run (upTo k) = (.ok v, upTo (k + 1)) := by
    intro k hk
    have hx : sample[k]? = some sample[k] := List.getElem?_eq_getElem hk
    have hy : old[k]? = some old[k] := List.getElem?_eq_getElem (by omega)
    have hs : p.sum[k]? = some p.sum[k] := List.getElem?_eq_getElem (by omega)
    have hq : p.sumSquares[k]? = some p.sumSquares[k] := List.getElem?_eq_getElem (by omega)
    let s' := p.sum[k] + (sample[k] - old[k])
    let q' := p.sumSquares[k] + (sample[k] * sample[k] - old[k] * old[k])
    have hs' : sum[k]? = some s' := by simp [s', hsum', List.getElem?_zipWith, hx, hy, hs]
    have hq' : sumSquares[k]? = some q' := by
      simp [q', hsquares', List.getElem?_zipWith, hx, hy, hq]
    have hvalue : values[k]? = some ((q' - s' * s' / n) / n) := by
      rw [List.getElem?_zipWith, hs', hq']
    have hsum : (updated k sum p.sum).set k s' = updated (k + 1) sum p.sum :=
      set_updated (by omega) hs'
    have hsquares : (updated k sumSquares p.sumSquares).set k q' =
        updated (k + 1) sumSquares p.sumSquares := set_updated (by omega) hq'
    have hat := run_updateAt (n := n) (p := upTo k) hx hy ((getElem?_updated (by omega)).trans hs)
      ((getElem?_updated (by omega)).trans hq)
    refine ⟨_, hvalue, hat.trans ?_⟩
    simp only [upTo, hsum, hsquares, s', q']
  have hcount : ∀ k ≤ sample.length,
      ((List.range k).mapM (updateAt n sample old)).run p = (.ok (values.take k), upTo k) := by
    intro k hk
    induction k with
    | zero => rfl
    | succ k ih =>
      obtain ⟨v, hv, hat⟩ := hstep k hk
      have hone : ([k].mapM (updateAt n sample old)).run (upTo k) = (.ok [v], upTo (k + 1)) := by
        rw [List.mapM_cons, run_bind_of_ok hat]
        rfl
      rw [List.range_succ, List.mapM_append, run_bind_of_ok (ih (by omega)), run_bind_of_ok hone,
        List.take_add_one, hv]
      rfl
  have hall := hcount sample.length (Nat.le_refl _)
  have hvalues : values.take sample.length = values :=
    List.take_of_length_le (by simp [values, hlen])
  have hsums : updated sample.length sum p.sum = sum := hlen ▸ updated_length (hlen.trans hsum.symm)
  have hsumSquares : updated sample.length sumSquares p.sumSquares = sumSquares :=
    hlen' ▸ updated_length (hlen'.trans hsquares.symm)
  simpa only [hvalues, upTo, hsums, hsumSquares] using hall

variable {stage : Stage α} {statistic : Statistic} {source : Nat}

/-- In place or not, a stage takes and refuses the same samples and makes the same of them. -/
theorem run_take (h : stage.Holds statistic source size past) :
    (take id size sample (.windowed statistic)).run (ofStage stage) =
      match stage.feed id sample with
      | .ok (value, stage') => (.ok value, ofStage stage')
      | .error e => (.error (some e), ofStage stage) := by
  have hstage := h
  obtain ⟨w, hw, rfl⟩ := hstage
  obtain rfl := hw.size_eq
  have hvalidate : ∀ sum sumSquares : List α,
      (validate id sample).run ⟨w.history, w.history.width, sum, sumSquares⟩ = _ :=
    fun _ _ => run_validate hw.history
  cases hs : refusal? id past sample with
  | some e =>
    simp only [hs] at hvalidate
    rw [h.feed_of_refusal hs]
    cases statistic <;> exact run_bind_of_error (hvalidate _ _) _
  | none =>
    simp only [hs] at hvalidate
    obtain ⟨history, hrecord, -, hh⟩ := hw.history.record (hw.admits hs)
    have hwindow : w.record id sample = .ok { w with history } := by
      simp only [Window.record, if_neg (refusal?_eq_none_iff.mp hs).1, hrecord]
    have hpush : ∀ sum sumSquares : List α,
      (push sample).run ⟨w.history, w.history.width, sum, sumSquares⟩ =
        (.ok (), ⟨history, history.width, sum, sumSquares⟩) := fun _ _ => by
      rw [run_push (p := ⟨w.history, w.history.width, _, _⟩) hw.history hrecord, hh.width_eq]
      rfl
    have hdeparting : ∀ sum sumSquares : List α,
        (departing w.size sample.length).run ⟨w.history, w.history.width, sum, sumSquares⟩ =
          (.ok (w.departing sample.length), ⟨w.history, w.history.width, sum, sumSquares⟩) :=
          fun _ _ =>
      run_departing hw.history
    have hold : (w.departing sample.length).length = sample.length := length_fit _ _
    cases statistic with
    | mean =>
      simp only [Stage.after, Stage.feed, hwindow]
      rw [ofStage, take, run_bind_of_ok (hvalidate _ _), run_bind_of_ok (hpush _ _),
        run_bind_of_ok (run_moments hh)]
      rfl
    | variance =>
      simp only [Stage.after, Stage.feed, hwindow]
      rw [ofStage, take, run_bind_of_ok (hvalidate _ _), run_bind_of_ok (hpush _ _),
        run_bind_of_ok (run_moments hh)]
      rfl
    | incrementalMean =>
      simp only [Stage.after, Stage.feed, hwindow]
      rw [ofStage, take, run_bind_of_ok (hvalidate _ _), run_bind_of_ok (hdeparting _ _),
        run_bind_of_ok (hpush _ _), run_bind_of_ok (run_modify _),
        run_update hold (length_fit _ _) rfl]
      rfl
    | incrementalVariance =>
      simp only [Stage.after, Stage.feed, hwindow]
      rw [ofStage, take, run_bind_of_ok (hvalidate _ _), run_bind_of_ok (hdeparting _ _),
        run_bind_of_ok (hpush _ _), run_bind_of_ok (run_modify _), run_bind_of_ok (run_modify _),
        run_updateEach hold (length_fit _ _) (length_fit _ _) rfl rfl]
      rfl

theorem run_reset (h : stage.Holds statistic source size past) :
    (reset (.windowed statistic)).run (ofStage stage) = (.ok (), ofStage stage.reset) := by
  obtain ⟨w, -, rfl⟩ := h
  cases statistic with
  | mean => exact run_clear
  | variance => exact run_clear
  | incrementalMean =>
    rw [reset, run_bind_of_ok run_clear, run_modify]
    rfl
  | incrementalVariance =>
    rw [reset, run_bind_of_ok run_clear, run_bind_of_ok (run_modify _), run_modify]
    rfl

end Parts

variable {α : Type} [Scalar α]

inductive New : Feature α → Prop where
  | input (id : String) (dimension : Nat) : New (.ofInput id dimension)
  | windowed {id : String} {statistic : Statistic} {source size : Nat} {f : Feature α} :
      ofWindow id statistic source size = .ok f → New f

/-- A feature takes one sample: an input one of its dimension, any other one that is not empty and
as wide as the first one taken. -/
def Declaration.Refuses (d : Declaration) (past inputs : List (List α)) : Prop :=
  inputs.length ≠ 1 ∨ ∃ sample ∈ inputs, match d.kind with
    | .input => sample.length ≠ d.number
    | .windowed _ => sample.length = 0 ∨ ∃ first ∈ past.getLast?, first.length ≠ sample.length

/-- The feature has been used, and these are the samples that it has taken since the last reset, the
newest first. -/
inductive Seen (past : List (List α)) : Feature α → Prop where
  | input (id : String) (dimension : Nat) : Seen past (.ofInput id dimension)
  | windowed {f : Feature α} {statistic : Statistic} {source size : Nat} :
      f.stage.Holds statistic source size past → Seen past f

variable {f f' : Feature α} {past inputs : List (List α)} {value : List α}

theorem New.seen (hf : f.New) : Seen [] f := by
  cases hf with
  | input id dimension => exact .input id dimension
  | @windowed id statistic source size _ hf =>
    rcases Nat.eq_zero_or_pos size with rfl | hsize
    · cases hf
    · obtain ⟨w, hw, hholds⟩ := exists_ofWindow (α := α) id statistic source hsize
      obtain rfl := Except.ok.inj (hw.symm.trans hf)
      exact .windowed (Stage.holds_ofWindow hholds statistic)

theorem Stage.Holds.declared {stage : Stage α} {statistic : Statistic} {source size : Nat}
    (h : stage.Holds statistic source size past) :
    stage.kind = .windowed statistic ∧ stage.number = size := by
  obtain ⟨w, hw, rfl⟩ := h
  rw [← hw.size_eq]
  cases statistic <;> exact ⟨rfl, rfl⟩

namespace Seen

theorem run_feed (hf : Seen past f) (inputs : List (List α)) :
    (Parts.feed f.declaration inputs).run (.ofStage f.stage) = match f.feed inputs with
      | .ok (value, f') => (.ok value, .ofStage f'.stage)
      | .error e => (.error (some e), .ofStage f.stage) := by
  match inputs with
  | [] | _ :: _ :: _ => rfl
  | [sample] =>
    cases hf with
    | input id dimension =>
      have htake : (Parts.feed (ofInput id dimension : Feature α).declaration [sample]) =
          if sample.length = dimension then pure sample
          else throw (some (.sampleWidth id dimension sample.length)) := rfl
      have hfeed : (ofInput id dimension).feed [sample] =
          (if sample.length = dimension then .ok (sample, .input dimension)
            else .error (.sampleWidth id dimension sample.length) :
            Except FeatureError (List α × Stage α)) >>= fun p => .ok (p.1, ⟨id, p.2⟩) := rfl
      rw [htake, hfeed]
      split <;> rfl
    | windowed h =>
      obtain ⟨hkind, hnumber⟩ := h.declared
      rw [Parts.feed, declaration, Feature.kind, hkind, hnumber, Parts.run_take h, Feature.feed]
      cases f.stage.feed f.id sample <;> rfl

theorem run_reset (hf : Seen past f) :
    (Parts.reset f.declaration.kind).run (.ofStage f.stage) = (.ok (), .ofStage f.reset.stage) := by
  cases hf with
  | input id dimension => rfl
  | windowed h =>
    rw [declaration, Feature.kind, h.declared.1]
    exact Parts.run_reset h

theorem reset (hf : Seen past f) : Seen [] f.reset := by
  cases hf with
  | input id dimension => exact .input id dimension
  | windowed h => exact .windowed h.reset

theorem feed (hf : Seen past f) (h : f.feed inputs = .ok (value, f')) :
    Seen (inputs ++ past) f' := by
  match inputs with
  | [] | _ :: _ :: _ => cases h
  | [sample] =>
    obtain ⟨⟨value', stage'⟩, hstage, h⟩ := ok_of_bind h
    cases h
    cases hf with
    | input id dimension =>
      simp only [ofInput, Stage.feed] at hstage
      split at hstage
      · cases hstage
        exact .input id dimension
      · cases hstage
    | windowed hseen =>
      cases hs : refusal? f.id past sample with
      | some e => cases (hseen.feed_of_refusal hs).symm.trans hstage
      | none =>
        obtain ⟨stage, hfeed, hstage'⟩ := hseen.feed hs
        cases hfeed.symm.trans hstage
        exact .windowed hstage'

omit [Scalar α] in
theorem refusal?_ne_none_iff (id : String) {sample : List α}
    (hwidths : ∀ s ∈ past, s.length = widthOf past) :
    refusal? id past sample ≠ none ↔ sample.length = 0 ∨ ∃ first ∈ past.getLast?,
    first.length ≠ sample.length := by
  rw [Ne, refusal?_eq_none_iff, not_and_or, not_ne_iff, ← List.length_eq_zero_iff (l := sample)]
  refine or_congr_right ?_
  cases hlast : past.getLast? with
  | none => simp [List.getLast?_eq_none_iff.mp hlast]
  | some first =>
    have hne : past ≠ [] := by
      rintro rfl
      cases hlast
    simp [hne, hwidths first (List.mem_of_getLast? hlast)]

/-- A feature refuses no other inputs than those. -/
theorem refuses_iff (hf : Seen past f) (inputs : List (List α)) :
    (∃ e, f.feed inputs = .error e) ↔ f.declaration.Refuses past inputs := by
  match inputs with
  | [] | _ :: _ :: _ => exact ⟨fun _ => .inl (by simp), fun _ => ⟨_, rfl⟩⟩
  | [sample] =>
    simp only [Declaration.Refuses, List.length_singleton, ne_eq, not_true, false_or,
      List.mem_singleton, exists_eq_left]
    cases hf with
    | input id dimension =>
      simp only [declaration, Feature.kind, ofInput, Stage.kind, Stage.number, Feature.feed,
        Stage.feed]
      by_cases hlen : sample.length = dimension <;> simp [hlen, bind, Except.bind, pure,
        Except.pure]
    | @windowed _ statistic _ _ h =>
      have hkind : f.declaration.kind = .windowed statistic := h.declared.1
      have hwidths : ∀ s ∈ past, s.length = widthOf past := by
        obtain ⟨w, hw, -⟩ := h
        exact hw.widths
      rw [hkind, ← refusal?_ne_none_iff f.id hwidths, Feature.feed]
      cases hs : refusal? f.id past sample with
      | some e => simp [h.feed_of_refusal hs, bind, Except.bind]
      | none =>
        obtain ⟨stage, hfeed, -⟩ := h.feed hs
        simp [hfeed, bind, Except.bind, pure, Except.pure]

end Seen

def advance (d : Declaration) (q : List (List α) × Parts α) : Action α → List (List α) × Parts α
  | .feed inputs =>
    let r := (Parts.feed d inputs).run q.2
    (match r.1 with
      | .ok _ => inputs ++ q.1
      | .error _ => q.1, r.2)
  | .reset => ([], ((Parts.reset d.kind).run q.2).2)

def used (f : Feature α) (actions : List (Action α)) : List (List α) × Parts α :=
  actions.foldl (advance f.declaration) ([], .ofStage f.stage)

theorem Seen.advance {q : List (List α) × Parts α} (hf : Seen q.1 f) (hq : q.2 = .ofStage f.stage)
    (action : Action α) :
    Seen (advance f.declaration q action).1 (f.act action) ∧
      (Feature.advance f.declaration q action).2 = .ofStage (f.act action).stage ∧
      (f.act action).declaration = f.declaration := by
  obtain ⟨past, p⟩ := q
  subst hq
  cases action with
  | reset => exact ⟨hf.reset, by rw [Feature.advance, hf.run_reset]; rfl, declaration_reset f⟩
  | feed inputs =>
    simp only [Feature.advance, hf.run_feed, act]
    cases h : f.feed inputs with
    | ok result => exact ⟨hf.feed h, rfl, declaration_feed h⟩
    | error e => exact ⟨hf, rfl, rfl⟩

theorem New.used (hf : f.New) (actions : List (Action α)) :
    Seen (f.used actions).1 (actions.foldl act f) ∧
    (f.used actions).2 = .ofStage (actions.foldl act f).stage ∧
      (actions.foldl act f).declaration = f.declaration := by
  have hrun : ∀ (g : Feature α) (q : List (List α) × Parts α), Seen q.1 g → q.2 = .ofStage g.stage →
      g.declaration = f.declaration →
      Seen (actions.foldl (Feature.advance f.declaration) q).1 (actions.foldl act g) ∧
        (actions.foldl (Feature.advance f.declaration) q).2 = .ofStage (actions.foldl act g).stage ∧
        (actions.foldl act g).declaration = f.declaration := by
    induction actions with
    | nil => exact fun g q hg hq hd => ⟨hg, hq, hd⟩
    | cons action actions ih =>
      intro g q hg hq hd
      obtain ⟨hseen, hparts, hdeclared⟩ := hg.advance hq action
      rw [hd] at hseen hparts hdeclared
      exact ih _ _ hseen hparts hdeclared
  exact hrun f _ hf.seen rfl rfl

/-- A new feature after any actions. It refuses what is not one sample, one of the wrong size for an
input, and an empty one or one of another width than the first for any other feature. Where it
refuses, all its parts are as before, so that later actions go on as if it had not been asked.
Written to in place it answers as it does otherwise. -/
theorem refused_untouched (hf : f.New) (actions : List (Action α)) (inputs : List (List α)) :
    ((∃ e, ((Parts.feed f.declaration inputs).run (f.used actions).2).1 = .error e) ↔
      f.declaration.Refuses (f.used actions).1 inputs) ∧
    (f.declaration.Refuses (f.used actions).1 inputs →
      ((Parts.feed f.declaration inputs).run (f.used actions).2).2 = (f.used actions).2 ∧
      ∀ more, f.used (actions ++ .feed inputs :: more) = f.used (actions ++ more)) ∧
    (Parts.feed f.declaration inputs).run (f.used actions).2 =
      match (actions.foldl act f).feed inputs with
      | .ok (value, f') => (.ok value, .ofStage f'.stage)
      | .error e => (.error (some e), .ofStage (actions.foldl act f).stage) := by
  obtain ⟨hseen, hparts, hdeclared⟩ := hf.used actions
  have hrefuses := hseen.refuses_iff inputs
  have hrun := hseen.run_feed inputs
  rw [hdeclared] at hrefuses hrun
  rw [← hparts] at hrun
  refine ⟨?_, fun h => ?_, hparts ▸ hrun⟩
  · rw [← hrefuses, hrun]
    cases (actions.foldl act f).feed inputs <;> simp
  · obtain ⟨e, he⟩ := hrefuses.mpr h
    rw [he] at hrun
    refine ⟨by rw [hrun], fun more => ?_⟩
    have hsame : Feature.advance f.declaration (f.used actions) (.feed inputs) =
        f.used actions := by
      simp only [Feature.advance, hrun]
    rw [Feature.used, Feature.used, List.foldl_append, List.foldl_append, List.foldl_cons]
    exact congrArg (more.foldl _) hsame

def spreading : Feature ℚ := ⟨"v", .incrementalVariance ⟨0, 2, ⟨#[[], []], 0, 0, none, 0⟩⟩ [] []⟩

/-- After a reset the width is another one, and the one before is refused. -/
theorem refused_untouched_spreading :
    let actions : List (Action ℚ) := [.feed [[1, 2]], .feed [[3]], .reset, .feed [[]], .feed [[3]]]
    spreading.New ∧ (spreading.used actions).1 = [[3]] ∧
      spreading.declaration.Refuses (spreading.used actions).1 [[1, 2]] ∧
      ((Parts.feed spreading.declaration [[1, 2]]).run (spreading.used actions).2).2 =
        (spreading.used actions).2 := by
  intro actions
  have hnew : spreading.New :=
    .windowed (rfl : ofWindow "v" .incrementalVariance 0 2 = .ok spreading)
  have hpast : (spreading.used actions).1 = [[3]] := by decide +kernel
  have hrefuses : spreading.declaration.Refuses (spreading.used actions).1 [[1, 2]] := by
    rw [hpast]
    exact .inr ⟨[1, 2], List.mem_singleton_self _, .inr ⟨[3], rfl, by decide⟩⟩
  exact ⟨hnew, hpast, hrefuses, ((refused_untouched hnew actions [[1, 2]]).2.1 hrefuses).1⟩

end Feature
end StreamStats
