import StreamStats.Proofs.Attempts
import StreamStats.Proofs.Circuits

/-! Circuits and simulators that are written to in place, with every index checked. A call on them
ends early when it is refused or when it comes to an index that is out of range, and keeps what it
wrote before. No index is ever out of range, and a call that is refused has written nothing. -/

namespace StreamStats

variable {α : Type}

inductive Stop where
  | refused (e : CircuitError)
  | outOfRange

abbrev InPlace (σ β : Type) := ExceptT Stop (StateM σ) β

namespace InPlace

variable {σ β γ : Type} {x : InPlace σ β} {s : σ}

def ofExcept : Except CircuitError β → InPlace σ β
  | .ok b => return b
  | .error e => throw (.refused e)

def ofOption : Option β → InPlace σ β
  | some b => return b
  | none => throw .outOfRange

/-- The call comes to `r`: a result and the state that it leaves, or a refusal that leaves the state
as it was. Nowhere is an index out of range. -/
def Does (x : InPlace σ β) (s : σ) (r : Except CircuitError (β × σ)) : Prop :=
  x.run s = match r with
    | .ok p => (.ok p.1, p.2)
    | .error e => (.error (.refused e), s)

theorem does_of_succeeds {p : β × σ} (h : x.Succeeds s fun b s' => b = p.1 ∧ s' = p.2) :
    x.Does s (.ok p) := by
  obtain ⟨b, s', hx, rfl, rfl⟩ := h
  exact hx

theorem does_get_bind {f : σ → InPlace σ γ} {r : Except CircuitError (γ × σ)} (h : (f s).Does s r) :
    (get >>= f).Does s r := h

/-- A call that only checks may be refused: nothing is written yet. -/
theorem Does.bind_of_checks {r : Except CircuitError β} {f : β → InPlace σ γ}
    {q : β → Except CircuitError (γ × σ)} (hx : x.Does s (r.map (·, s)))
    (hf : ∀ b, r = .ok b → (f b).Does s (q b)) : (x >>= f).Does s (r >>= q) := by
  unfold Does at hx ⊢
  rw [ExceptT.run_bind_state, hx]
  cases r with
  | ok b => exact hf b rfl
  | error e => rfl

/-- Behind a call that may have written, nothing is refused. -/
theorem Does.bind_of_ok {r : Except CircuitError (β × σ)} {f : β → InPlace σ γ} {q : β × σ → γ × σ}
    (hx : x.Does s r) (hf : ∀ p, r = .ok p → (f p.1).Does p.2 (.ok (q p))) :
    (x >>= f).Does s (r.map q) := by
  unfold Does at hx ⊢
  rw [ExceptT.run_bind_state, hx]
  cases r with
  | ok p => exact hf p rfl
  | error e => rfl

theorem does_ofExcept (r : Except CircuitError β) : (ofExcept r).Does s (r.map (·, s)) := by
  cases r <;> rfl

theorem succeeds_ofOption {o : Option β} {b : β} {Q : β → σ → Prop} (ho : o = some b) (h : Q b s) :
    (ofOption o : InPlace σ β).Succeeds s Q := ⟨b, s, by rw [ho]; rfl, h⟩

theorem does_forM (check : σ → β → Except CircuitError Unit) (bs : List β) :
    (bs.forM fun b => do ofExcept (check (← get) b)).Does s ((bs.forM (check s)).map (·, s)) := by
  induction bs with
  | nil => rfl
  | cons b bs ih =>
    have h := (does_get_bind (f := fun s' => ofExcept (check s' b))
      (does_ofExcept (check s b))).bind_of_checks fun _ _ => ih
    cases hb : check s b <;> simpa [hb, List.forM, Except.map, bind, Except.bind] using h

def follow (p : List β × σ) (x : InPlace σ β) : List β × σ :=
  ((x.run p.2).1.toOption.toList ++ p.1, (x.run p.2).2)

theorem mem_foldl_follow {calls : List (InPlace σ β)} {p : List β × σ} {b : β} (h : b ∈ p.1) :
    b ∈ (calls.foldl follow p).1 := by
  induction calls generalizing p with
  | nil => exact h
  | cons x calls ih => exact ih (List.mem_append_right _ h)

/-- What every call that succeeds keeps holds after any calls. -/
theorem foldl_follow {ι : Type} {f : ι → InPlace σ β} {g : ι → σ → Except CircuitError (β × σ)}
    {I : List β × σ → Prop} (hdoes : ∀ i p, I p → (f i).Does p.2 (g i p.2))
    (hkeeps : ∀ i p b s, I p → g i p.2 = .ok (b, s) → I (b :: p.1, s)) (calls : List ι)
    {p : List β × σ} (hp : I p) : I ((calls.map f).foldl follow p) := by
  induction calls generalizing p with
  | nil => exact hp
  | cons i calls ih =>
    refine ih ?_
    have hrun := hdoes i p hp
    unfold Does at hrun
    cases h : g i p.2 with
    | ok q =>
      simp only [follow, hrun, h]
      exact hkeeps i p q.1 q.2 hp h
    | error e =>
      simp only [follow, hrun, h]
      exact hp

end InPlace

open InPlace

namespace Circuit

@[simp] theorem sizes_push (c : Circuit α) (cell : Cell α) :
    c.sizes.push cell.size = (c.cells.push cell).map Cell.size := by
  rw [c.sizes_eq, Array.map_push]

def push (c : Circuit α) (cell : Cell α) : Circuit α :=
  ⟨c.cells.push cell, c.sizes.push cell.size, c.sizes_push cell⟩

def placeInPlace (cell : Cell α) : InPlace (Circuit α) Bus := do
  ofExcept cell.checkShape
  cell.sources.forM fun b => do ofExcept ((← get).check b)
  let c ← get
  set (c.push cell)
  return Bus.range c.size 0 cell.size

theorem placeInPlace_does (c : Circuit α) (cell : Cell α) :
    (placeInPlace cell).Does c (c.place cell) :=
  (does_ofExcept cell.checkShape).bind_of_checks fun _ _ =>
    (does_forM check cell.sources).bind_of_checks fun _ _ => rfl

def attempted (cells : List (Cell α)) : List Bus × Circuit α :=
  (cells.map placeInPlace).foldl follow ([], empty)

theorem mem_attempted {cells more : List (Cell α)} {bus : Bus} (h : bus ∈ (attempted cells).1) :
    bus ∈ (attempted (cells ++ more)).1 := by
  rw [attempted, List.map_append, List.foldl_append]
  exact mem_foldl_follow h

structure Placed (p : List Bus × Circuit α) : Prop where
  built : p.2.Built
  has : ∀ bus ∈ p.1, ∀ pin ∈ bus, p.2.Has pin

theorem Placed.place {p : List Bus × Circuit α} (hp : Placed p) {cell : Cell α} {bus : Bus}
    {c : Circuit α} (h : p.2.place cell = .ok (bus, c)) : Placed (bus :: p.1, c) := by
  obtain ⟨-, -, hbus, hcells⟩ := place_eq_ok_iff.mp h
  refine ⟨hp.built.place h, List.forall_mem_cons.mpr ⟨fun pin hpin => ?_, fun b hb pin hpin => ?_⟩⟩
  · rw [hbus] at hpin
    obtain ⟨element, helement, rfl⟩ := List.mem_map.mp hpin
    refine ⟨cell, by simp [hcells, size], ?_⟩
    simpa using List.mem_range'.mp helement
  · exact has_push hcells (hp.has b hb pin hpin)

@[simp] theorem placed_attempted (cells : List (Cell α)) : Placed (attempted cells) := by
  have hempty : Placed (([], empty) : List Bus × Circuit α) := ⟨.empty, by simp⟩
  exact foldl_follow (g := fun cell c => c.place cell) (fun cell p _ => placeInPlace_does p.2 cell)
    (fun _ _ _ _ hp h => hp.place h) cells hempty

end Circuit

namespace Levels

def readPin? (levels : Levels α) (p : Pin) : Option α := do
  (← levels[p.cell]?)[p.element]?

def read? (levels : Levels α) (b : Bus) : Option (List α) := b.mapM levels.readPin?

theorem read?_eq [Scalar α] {levels : Levels α} {b : Bus}
    (h : ∀ p ∈ b, levels.readPin? p = some (levels.readPin p)) :
    levels.read? b = some (levels.read b) :=
  mapM_eq_some_map h

def before (levels : Levels α) (id : Nat) : Levels α := levels.extract 0 id

@[simp] theorem before_zero (levels : Levels α) : levels.before 0 = #[] := by simp [before]

@[simp] theorem getElem?_before {levels : Levels α} {i id : Nat} (h : i < id) :
    (levels.before id)[i]? = levels[i]? := by
  simp [before, Array.getElem?_extract, h]

@[simp] theorem before_push {levels : Levels α} {id : Nat} (hid : id < levels.size)
    (values : Array α) :
    (levels.before id).push values = before (levels.setIfInBounds id values) (id + 1) := by
  have hlist : id < levels.toList.length := by simpa using hid
  refine Array.toList_inj.mp ?_
  simp [before, List.take_add_one, List.take_set_of_le, List.getElem?_set_self hlist]

end Levels

/-- Copy the first `count` values to where `start` is, also where this overlaps them. -/
def copyWithin? (values : List α) (count start : Nat) : Option (List α) :=
  if start + count ≤ values.length then
    some (values.take start ++ values.take count ++ values.drop (start + count))
  else none

/-- Write to the values in front, for each item in turn, up to the end of the values or of the
items. -/
def overwrite? {ι : Type} (write : α → ι → Option α) : List α → List ι → Option (List α)
  | value :: values, item :: items => do
    let value ← write value item
    let values ← overwrite? write values items
    return value :: values
  | values, _ => some values

theorem overwrite?_eq {ι : Type} {write : α → ι → Option α} {f : α → ι → α} {values : List α}
    {items : List ι} (h : ∀ item ∈ items, ∀ value, write value item = some (f value item)) :
    overwrite? write values items =
      some (List.zipWith f values items ++ values.drop items.length) := by
  induction values generalizing items with
  | nil => simp [overwrite?]
  | cons value values ih =>
    cases items with
    | nil => simp [overwrite?]
    | cons item items =>
      obtain ⟨hitem, hitems⟩ := List.forall_mem_cons.mp h
      simp [overwrite?, hitem, ih hitems]

theorem zipWith_right {ι : Type} {f : ι → α} {values : List α} {items : List ι}
    (h : items.length ≤ values.length) :
    List.zipWith (fun _ item => f item) values items = items.map f :=
  List.ext_getElem (by simpa using h) (by simp)

namespace Cell

theorem size_pos {cell : Cell α} (hshape : cell.checkShape = .ok ()) : 0 < cell.size := by
  cases cell with
  | input n =>
    have hn : n ≠ 0 := by simpa [checkShape] using hshape
    exact Nat.pos_of_ne_zero hn
  | constant values =>
    have hvalues : values ≠ [] := by simpa [checkShape] using hshape
    exact List.length_pos_iff.mpr hvalues
  | delay source window =>
    obtain ⟨hsource, hwindow⟩ := checkShape_delay hshape
    exact Nat.mul_pos (List.length_pos_iff.mpr hsource) (Nat.pos_of_ne_zero hwindow)
  | binary op lhs rhs => exact List.length_pos_iff.mpr (checkShape_binary hshape).1
  | accumulator source =>
    have hsource : source ≠ [] := by simpa [checkShape] using hshape
    exact List.length_pos_iff.mpr hsource

variable [Scalar α]

def settle? (before : Levels α) (sample last : List α) : Cell α → Option (List α)
  | input _ => if last.length = sample.length then some sample else none
  | constant _ => some last
  | delay _ 0 => none
  | delay source (rest + 1) => do
    let moved ← copyWithin? last (source.length * rest) source.length
    overwrite? (fun _ p => before.readPin? p) moved source
  | binary op lhs rhs =>
    overwrite? (fun _ pins =>
      do return op.apply (← before.readPin? pins.1) (← before.readPin? pins.2)) last (lhs.zip rhs)
  | accumulator source =>
    overwrite? (fun value p => do return value + (← before.readPin? p)) last source

theorem settle?_eq {cell : Cell α} (hshape : cell.checkShape = .ok ()) {before : Levels α}
    (hreads : ∀ b ∈ cell.sources, ∀ p ∈ b, before.readPin? p = some (before.readPin p))
    {sample : List α} (hsample : ∀ n, cell.inputSize? = some n → n = sample.length) {last : Array α}
    (hlast : last.size = cell.size) :
    cell.settle? before sample last.toList = some (cell.settle before sample last).toList := by
  rw [← Array.length_toList] at hlast
  cases cell with
  | input n => simp [settle?, settle, hlast, size, hsample n rfl]
  | constant values => rfl
  | delay source window =>
    cases window with
    | zero => exact absurd rfl (checkShape_delay hshape).2
    | succ rest =>
      have hsize : last.toList.length = source.length + source.length * rest := by
        rw [hlast, size, Nat.mul_succ, Nat.add_comm]
      have hmoved : copyWithin? last.toList (source.length * rest) source.length =
          some (last.toList.take source.length ++ last.toList.take (source.length * rest)) := by
        rw [copyWithin?, if_pos (by omega), ← hsize, List.drop_length, List.append_nil]
      have hpins := hreads source (by simp [sources])
      have htake : (last.toList.take source.length).length = source.length := by
        rw [List.length_take]
        omega
      simp only [settle?, hmoved, Option.bind_eq_bind, Option.bind_some]
      rw [overwrite?_eq (f := fun _ p => before.readPin p) fun p hp _ => hpins p hp,
        zipWith_right (by rw [List.length_append]; omega), List.drop_left' htake]
      simp [settle, Levels.read]
  | binary op lhs rhs =>
    have hwidth := (checkShape_binary hshape).2
    have hl := hreads lhs (by simp [sources])
    have hr := hreads rhs (by simp [sources])
    simp only [settle?]
    rw [overwrite?_eq (f := fun _ pins => op.apply (before.readPin pins.1) (before.readPin pins.2))]
    · rw [zipWith_right (by simp [hlast, size]),
        List.drop_of_length_le (by simp [hlast, size, hwidth]), List.append_nil,
        List.map_zip_eq_zipWith]
      simp only [settle, Levels.read, List.zipWith_map]
      rfl
    · intro pins hp _
      simp [hl pins.1 (List.of_mem_zip hp).1, hr pins.2 (List.of_mem_zip hp).2]
  | accumulator source =>
    have hpins := hreads source (by simp [sources])
    simp only [settle?]
    rw [overwrite?_eq (f := fun value p => value + before.readPin p) fun p hp _ =>
      by simp [hpins p hp]]
    simp only [size] at hlast
    rw [List.drop_of_length_le (by omega)]
    simp [settle, Levels.read, List.zipWith_map_right]

end Cell

namespace Circuit

theorem Has.readPin?_eq [Scalar α] {c : Circuit α} {levels : Levels α}
    (hfits : Simulator.Fits c levels) {p : Pin} (hp : c.Has p) :
    levels.readPin? p = some (levels.readPin p) := by
  obtain ⟨cell, hcell, hlt⟩ := hp
  obtain ⟨values, hvalues, hsize⟩ := hfits.exists_values hcell
  have hv : values[p.element]? = some values[p.element] := Array.getElem?_eq_getElem (by omega)
  simp [Levels.readPin?, Levels.readPin, hvalues, hv]

end Circuit

namespace Simulator

variable [Scalar α]

def settleFrom (sample : List α) : Nat → List (Cell α) → InPlace (Simulator α) Unit
  | _, [] => return ()
  | id, cell :: cells => do
    let s ← get
    let last ← ofOption s.levels[id]?
    let values ← ofOption (cell.settle? (s.levels.before id) sample last.toList)
    set { s with levels := s.levels.setIfInBounds id values.toArray }
    settleFrom sample (id + 1) cells

def stepInPlace (sample : List α) : InPlace (Simulator α) Unit := do
  let s ← get
  ofExcept (checkSample s.circuit sample)
  settleFrom sample 0 s.circuit.cells.toList
  modify fun s => { s with steps := s.steps + 1 }

def observeInPlace (sample : List α) (output : Bus) : InPlace (Simulator α) (List α) := do
  let s ← get
  ofExcept (s.circuit.check output)
  stepInPlace sample
  let s ← get
  ofOption (s.levels.read? output)

omit [Scalar α] in
theorem Fits.set {c : Circuit α} {levels : Levels α} (h : Fits c levels) {id : Nat} {cell : Cell α}
    (hcell : c.cells[id]? = some cell) {values : Array α} (hsize : values.size = cell.size) :
    Fits c (levels.setIfInBounds id values) := by
  refine ⟨by rw [Array.size_setIfInBounds, h.size_eq], fun i cell' values' hi hv => ?_⟩
  rw [Array.getElem?_setIfInBounds] at hv
  split at hv
  · rename_i heq
    subst heq
    split at hv
    · cases hv
      cases hcell.symm.trans hi
      exact hsize
    · cases hv
  · exact h.sizes i cell' values' hi hv

theorem settleFrom_succeeds {c : Circuit α} (hc : c.Sound) {sample : List α}
    (hsample : ∀ cell ∈ c.cells.toList, ∀ n, cell.inputSize? = some n → n = sample.length)
    {id : Nat} {cells : List (Cell α)} (hcells : c.cells.toList.drop id = cells) {s : Simulator α}
    (hfits : Fits c s.levels) :
    (settleFrom sample id cells).Succeeds s fun _ s' =>
      s' =
        { s with levels := settleAll sample (s.levels.before id) cells (s.levels.toList.drop id) } ∧
        Fits c s'.levels := by
  -- In front of `id` cells show this step, from there on the step before; either way they have all
  -- their values.
  induction cells generalizing id s with
  | nil =>
    have hle : s.levels.size ≤ id := by
      rw [hfits.size_eq, ← Array.length_toList]
      exact List.drop_eq_nil_iff.mp hcells
    have hall : s.levels.before id = s.levels := Array.extract_eq_self_of_le hle
    exact ExceptT.succeeds_pure ⟨by simp [settleAll, hall], hfits⟩
  | cons cell cells ih =>
    have hcell : c.cells[id]? = some cell := by
      rw [← Array.getElem?_toList, ← List.head?_drop, hcells, List.head?_cons]
    obtain ⟨last, hlast, hsize⟩ := hfits.exists_values hcell
    obtain ⟨hlt, hget⟩ := Array.getElem?_eq_some_iff.mp hlast
    have hreads : ∀ b ∈ cell.sources, ∀ p ∈ b,
        (s.levels.before id).readPin? p = some ((s.levels.before id).readPin p) := by
      intro b hb p hp
      obtain ⟨hbefore, hhas⟩ := hc.sources id cell hcell b hb p hp
      have h := hhas.readPin?_eq hfits
      rwa [Levels.readPin?, Levels.readPin, ← Levels.getElem?_before hbefore] at h
    have hcellSample := hsample cell (List.mem_of_getElem? (by rwa [Array.getElem?_toList]))
    have hsettle := Cell.settle?_eq (hc.shape id cell hcell) hreads hcellSample hsize
    have hsettled := Cell.size_settle (hc.shape id cell hcell) (s.levels.before id) hcellSample
      hsize
    generalize hv : cell.settle (s.levels.before id) sample last = values at hsettle hsettled
    refine .bind (ExceptT.succeeds_get ?_)
    refine .bind (succeeds_ofOption hlast ?_)
    refine .bind (succeeds_ofOption hsettle ?_)
    refine .bind (ExceptT.succeeds_set ?_)
    have hcells' : c.cells.toList.drop (id + 1) = cells := by
      rw [← List.drop_drop, hcells, List.drop_one, List.tail_cons]
    have hnext := hfits.set hcell hsettled
    refine (ih hcells' hnext).imp ?_
    rintro - s' ⟨rfl, hfits'⟩
    refine ⟨?_, hfits'⟩
    have hdrop : s.levels.toList.drop id = last :: s.levels.toList.drop (id + 1) := by
      rw [List.drop_eq_getElem_cons (by simpa using hlt), Array.getElem_toList, hget]
    have hrest : (s.levels.setIfInBounds id values).toList.drop (id + 1) =
        s.levels.toList.drop (id + 1) := by
      rw [Array.toList_setIfInBounds, List.drop_set_of_lt (Nat.lt_succ_self id)]
    rw [hdrop, settleAll, hv, Levels.before_push hlt, hrest]

theorem stepInPlace_does {s : Simulator α} (hc : s.circuit.Sound) (hfits : Fits s.circuit s.levels)
    (sample : List α) :
    (stepInPlace sample).Does s ((s.step sample).map ((), ·)) := by
  have hmap : (s.step sample).map ((), ·) = checkSample s.circuit sample >>= fun _ =>
      .ok ((), { s with
        levels := settleAll sample #[] s.circuit.cells.toList s.levels.toList
        steps := s.steps + 1 }) := by
    unfold step
    cases checkSample s.circuit sample <;> rfl
  rw [hmap]
  refine does_get_bind ((does_ofExcept _).bind_of_checks fun _ hsample =>
    does_of_succeeds (.bind ?_))
  refine (settleFrom_succeeds hc (checkSample_eq_ok_iff.mp hsample).2 List.drop_zero hfits).imp ?_
  rintro - s' ⟨rfl, -⟩
  exact ExceptT.succeeds_modify ⟨rfl, by simp⟩

/-- The simulator is one of this circuit, and it keeps as many values for a cell as the cell has
elements. -/
structure Runs (c : Circuit α) (s : Simulator α) : Prop where
  circuit_eq : s.circuit = c
  fits : Fits c s.levels

variable {c : Circuit α} {s s' : Simulator α}

theorem Runs.step (hc : c.Sound) (hs : s.Runs c) {sample : List α} (h : s.step sample = .ok s') :
    s'.Runs c := by
  obtain ⟨rfl, hfits⟩ := hs
  obtain ⟨⟨⟩, hsample, h⟩ := ok_of_bind h
  cases h
  obtain ⟨-, _, -, rfl, hfits'⟩ :=
    settleFrom_succeeds hc (checkSample_eq_ok_iff.mp hsample).2 List.drop_zero hfits
  exact ⟨rfl, by simpa using hfits'⟩

/-- What is asked of a simulator. -/
inductive Request (α : Type) where
  | step (sample : List α)
  | observe (sample : List α) (output : Bus)

/-- A step shows nothing. -/
def serve (s : Simulator α) : Request α → Except CircuitError (List α × Simulator α)
  | .step sample => (s.step sample).map ([], ·)
  | .observe sample output => s.observe sample output

def serveInPlace : Request α → InPlace (Simulator α) (List α)
  | .step sample => do
    stepInPlace sample
    return []
  | .observe sample output => observeInPlace sample output

theorem stepInPlace_bind (hc : s.circuit.Sound) (hfits : Fits s.circuit s.levels) {sample : List α}
    {β : Type} {f : Unit → InPlace (Simulator α) β} {shown : Simulator α → β}
    (hf : ∀ s', s.step sample = .ok s' → (f ()).Does s' (.ok (shown s', s'))) :
    (stepInPlace sample >>= f).Does s ((s.step sample).map fun s' => (shown s', s')) := by
  have hstep := stepInPlace_does hc hfits sample
  cases h : s.step sample with
  | error e =>
    rw [h] at hstep
    exact hstep.bind_of_ok (q := fun p => (shown p.2, p.2)) fun p hp => by cases hp
  | ok s' =>
    rw [h] at hstep
    exact hstep.bind_of_ok (q := fun p => (shown p.2, p.2)) fun p hp => by cases hp; exact hf s' h

theorem Runs.serveInPlace_does (hc : c.Sound) (hs : s.Runs c) (request : Request α) :
    (serveInPlace request).Does s (s.serve request) := by
  have hcircuit := hs.circuit_eq
  subst hcircuit
  cases request with
  | step sample => exact stepInPlace_bind hc hs.fits fun _ _ => rfl
  | observe sample output =>
    have hobserve : s.observe sample output = s.circuit.check output >>= fun _ =>
        (s.step sample).map fun s' => (s'.read output, s') := by
      unfold observe
      cases s.circuit.check output <;> cases s.step sample <;> rfl
    rw [serve, hobserve]
    refine does_get_bind ((does_ofExcept _).bind_of_checks fun _ houtput => ?_)
    refine stepInPlace_bind hc hs.fits fun s' hstep => ?_
    have hread : s'.levels.read? output = some (s'.read output) :=
      Levels.read?_eq fun p hp => (Circuit.check_eq_ok_iff.mp houtput p hp).readPin?_eq
      (hs.step hc hstep).fits
    exact does_get_bind (does_of_succeeds (succeeds_ofOption hread ⟨rfl, rfl⟩))

/-- A request is served by taking one sample. -/
theorem exists_step_of_serve {request : Request α} {values : List α}
    (h : s.serve request = .ok (values, s')) :
    ∃ sample, s.step sample = .ok s' := by
  cases request with
  | step sample =>
    refine ⟨sample, ?_⟩
    cases hstep : s.step sample with
    | error e => simp [serve, hstep, Except.map] at h
    | ok s'' =>
      simp only [serve, hstep, Except.map, Except.ok.injEq, Prod.mk.injEq] at h
      rw [h.2]
  | observe sample output => exact ⟨sample, step_of_observe h⟩

theorem Runs.serve (hc : c.Sound) (hs : s.Runs c) {request : Request α} {values : List α}
    (h : s.serve request = .ok (values, s')) : s'.Runs c := by
  obtain ⟨sample, hstep⟩ := exists_step_of_serve h
  exact hs.step hc hstep

def served (c : Circuit α) (requests : List (Request α)) : List (List α) × Simulator α :=
  (requests.map serveInPlace).foldl follow ([], ofCircuit c)

theorem runs_served (hc : c.Sound) (requests : List (Request α)) : (served c requests).2.Runs c :=
  foldl_follow (I := fun p : List (List α) × Simulator α => p.2.Runs c) (g := fun request s =>
    s.serve request) (fun request _ hs => hs.serveInPlace_does hc request)
    (fun _ _ _ _ hs h => hs.serve hc h) requests ⟨rfl, fits_ofCircuit c⟩

end Simulator

/-- A cell and a sample are refused in between. -/
example [Scalar α] (x y : α) :
    (Simulator.served (Circuit.attempted [.accumulator [⟨0, 0⟩], .input 1, .delay [⟨0, 0⟩] 2]).2
      [.step [x], .step [x, y], .observe [y] [⟨1, 0⟩, ⟨1, 1⟩]]).1 = [[y, x], []] := by cbv

end StreamStats
