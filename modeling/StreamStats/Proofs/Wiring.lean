import StreamStats.Feature.Wiring
import StreamStats.Proofs.Attempts
import StreamStats.Proofs.Traces

/-! What the circuit form of a feature shows. Wiring succeeds, only adds cells, and returns a bus on
which every pin shows what the feature's statistic makes of what the pin of the source has shown. -/

namespace StreamStats

open ExceptT

variable {α : Type} [Scalar α]

def addUp : List α → α
  | [] => 0
  | x :: xs => xs.foldl (· + ·) x

namespace Circuit

/-- The cells of the one circuit are the first of the other. -/
def Extends (d c : Circuit α) : Prop :=
  ∀ (id : Nat) (cell : Cell α), c.cells[id]? = some cell → d.cells[id]? = some cell

/-- The pin is of a cell that is there and is no constant. -/
def Varies (c : Circuit α) (p : Pin) : Prop :=
  ∃ cell, c.cells[p.cell]? = some cell ∧ p.element < cell.size ∧ ∀ values, cell ≠ .constant values

/-- What wiring keeps true: the circuit came about by placing cells of the sizes allowed, takes
samples of widths that it may take, has counts for constants, and no operation has a constant on its
left. -/
structure Wirable (takes allowed : Nat → Prop) (c : Circuit α) : Prop where
  built : c.Built
  inputs : ∀ cell ∈ c.cells, ∀ k, cell.inputSize? = some k → takes k
  constants : ∀ values, .constant values ∈ c.cells → ∃ n, 0 < n ∧ values = [Scalar.ofNat n]
  lhs : ∀ op lhs rhs, .binary op lhs rhs ∈ c.cells → ∀ p ∈ lhs, c.Varies p
  sizes : ∀ cell ∈ c.cells, allowed cell.size

end Circuit

def Cell.Suits (c : Circuit α) (takes : Nat → Prop) : Cell α → Prop
  | input size => takes size ∧ 0 < size
  | constant values => ∃ n, 0 < n ∧ values = [Scalar.ofNat n]
  | delay source window => source ≠ [] ∧ 0 < window ∧ ∀ p ∈ source, c.Has p
  | binary _ lhs rhs =>
    lhs ≠ [] ∧ lhs.length = rhs.length ∧ (∀ p ∈ lhs, c.Varies p) ∧ ∀ p ∈ rhs, c.Has p
  | accumulator source => source ≠ [] ∧ ∀ p ∈ source, c.Has p

namespace Circuit

variable {c d e : Circuit α} {takes allowed : Nat → Prop} {p : Pin}

omit [Scalar α] in
@[simp] theorem Extends.refl (c : Circuit α) : c.Extends c := fun _ _ h => h

omit [Scalar α] in
theorem Extends.trans (h : e.Extends d) (h' : d.Extends c) : e.Extends c :=
  fun id cell hc => h id cell (h' id cell hc)

omit [Scalar α] in
theorem Extends.has (h : d.Extends c) (hp : c.Has p) : d.Has p := by
  obtain ⟨cell, hcell, hlt⟩ := hp
  exact ⟨cell, h _ _ hcell, hlt⟩

omit [Scalar α] in
theorem Extends.varies (h : d.Extends c) (hp : c.Varies p) : d.Varies p := by
  obtain ⟨cell, hcell, hrest⟩ := hp
  exact ⟨cell, h _ _ hcell, hrest⟩

omit [Scalar α] in
theorem Varies.has (h : c.Varies p) : c.Has p := by
  obtain ⟨cell, hcell, hlt, -⟩ := h
  exact ⟨cell, hcell, hlt⟩

omit [Scalar α] in
theorem extends_push {cell : Cell α} (h : d.cells = c.cells.push cell) : d.Extends c := by
  intro id cell' hid
  have hlt := (Array.getElem?_eq_some_iff.mp hid).1
  rw [h, Array.getElem?_push_lt hlt, ← hid, Array.getElem?_eq_getElem hlt]

@[simp] theorem wirable_empty : (empty : Circuit α).Wirable takes allowed := by
  constructor
  · exact .empty
  all_goals simp [empty]

end Circuit

namespace Cell

variable {c d : Circuit α} {takes allowed : Nat → Prop} {cell : Cell α}

theorem Suits.checkShape (h : cell.Suits c takes) : cell.checkShape = .ok () := by
  cases cell with
  | input size => simp [Cell.checkShape, Nat.ne_of_gt h.2]
  | constant values =>
    obtain ⟨n, -, rfl⟩ := h
    simp [Cell.checkShape]
  | delay source window => simp [Cell.checkShape, h.1, Nat.ne_of_gt h.2.1]
  | binary op lhs rhs => simp [Cell.checkShape, h.1, h.2.1]
  | accumulator source => simp [Cell.checkShape, h.1]

theorem Suits.sources (h : cell.Suits c takes) : ∀ b ∈ cell.sources, ∀ p ∈ b, c.Has p := by
  cases cell with
  | input _ | constant _ => simp [Cell.sources]
  | delay source window => simpa [Cell.sources] using h.2.2
  | binary op lhs rhs =>
    simp only [Cell.sources, List.forall_mem_cons, List.not_mem_nil, false_implies, implies_true,
      and_true]
    exact ⟨fun p hp => (h.2.2.1 p hp).has, h.2.2.2⟩
  | accumulator source => simpa [Cell.sources] using h.2

theorem Suits.wirable (h : cell.Suits c takes) (hsize : allowed cell.size)
    (hc : c.Wirable takes allowed) {bus : Bus} (hd : c.place cell = .ok (bus, d)) :
    d.Wirable takes allowed ∧ d.Extends c := by
  obtain ⟨-, -, -, hcells⟩ := Circuit.place_eq_ok_iff.mp hd
  have he : d.Extends c := Circuit.extends_push hcells
  have hmem : ∀ cell', cell' ∈ d.cells ↔ cell' ∈ c.cells ∨ cell' = cell := fun cell' => by
    simp [hcells]
  refine ⟨⟨hc.built.place hd, ?_, ?_, ?_, ?_⟩, he⟩
  · intro cell' hcell' k hk
    rcases (hmem cell').mp hcell' with hold | rfl
    · exact hc.inputs cell' hold k hk
    · cases cell' <;> cases hk
      exact h.1
  · intro values hcell'
    rcases (hmem _).mp hcell' with hold | rfl
    · exact hc.constants values hold
    · exact h
  · intro op lhs rhs hcell' p hp
    rcases (hmem _).mp hcell' with hold | rfl
    · exact he.varies (hc.lhs op lhs rhs hold p hp)
    · exact he.varies (h.2.2.1 p hp)
  · intro cell' hcell'
    rcases (hmem cell').mp hcell' with hold | rfl
    · exact hc.sizes cell' hold
    · exact hsize

end Cell

namespace Assembly

open Circuit

variable {c : Circuit α} {takes allowed : Nat → Prop} {β : Type}

omit [Scalar α] in
theorem succeeds_ofCircuit {x : Except CircuitError β} {b : β} {Q : β → Circuit α → Prop}
    (hx : x = .ok b) (h : Q b c) :
    (ofCircuit x : Assembly α β).Succeeds c Q := by
  rw [hx]
  exact succeeds_pure h

theorem place_succeeds {Q : Bus → Circuit α → Prop} (hc : c.Wirable takes allowed) {cell : Cell α}
    (hcell : cell.Suits c takes) (hsize : allowed cell.size)
    (h : ∀ d : Circuit α, d.Wirable takes allowed → d.Extends c → d.cells[c.size]? = some cell →
      Q (Bus.range c.size 0 cell.size) d) : (place cell).Succeeds c Q := by
  have hplace : c.place cell = .ok (Bus.range c.size 0 cell.size, ofCells (c.cells.push cell)) :=
    place_eq_ok_iff.mpr ⟨hcell.checkShape, hcell.sources, rfl, rfl⟩
  obtain ⟨hd, he⟩ := hcell.wirable hsize hc hplace
  refine .bind (succeeds_get ?_)
  simp only [hplace]
  exact .bind (succeeds_set (succeeds_pure (h _ hd he (by simp [ofCells, Circuit.size]))))

end Assembly

/-- A bus, what each of its pins makes of what a pin of some source has shown, and whether it does
vary. -/
structure Signal (α : Type) where
  bus : Bus
  reading : List α → α
  varies : Bool

omit [Scalar α] in
theorem Bus.getElem?_range {cell start length i : Nat} (hi : i < length) :
    (Bus.range cell start length)[i]? = some ⟨cell, start + i⟩ := by
  simp [Bus.range, hi]

@[simp] theorem Bus.mem_range {cell start length : Nat} {p : Pin} :
    p ∈ Bus.range cell start length ↔ ∃ i < length, p = ⟨cell, start + i⟩ := by
  simp only [Bus.range, List.mem_map, List.mem_range'_1]
  constructor
  · rintro ⟨k, hk, rfl⟩
    exact ⟨k - start, by omega, by rw [Nat.add_sub_cancel' hk.1]⟩
  · rintro ⟨i, hi, rfl⟩
    exact ⟨start + i, by omega, rfl⟩

namespace Circuit

/-- The signal is on its bus, pin by pin, however the circuit is extended. -/
structure Carries (c : Circuit α) (source : Bus) (s : Signal α) : Prop where
  length_eq : s.bus.length = source.length
  has : ∀ p ∈ s.bus, c.Has p
  varies : s.varies = true → ∀ p ∈ s.bus, c.Varies p
  shows : ∀ d : Circuit α, d.Extends c → d.Sound → ∀ (i : Nat) (p q : Pin), s.bus[i]? = some p →
    source[i]? = some q → d.Shows p q s.reading

variable {c d base : Circuit α} {takes allowed : Nat → Prop} {id : Nat} {source bus : Bus}
    {s : Signal α} {signals : List (Signal α)}

theorem Carries.mono (h : c.Carries source s) (hd : d.Extends c) : d.Carries source s :=
  ⟨h.length_eq, fun p hp => hd.has (h.has p hp), fun hv p hp => hd.varies (h.varies hv p hp),
    fun e he => h.shows e (he.trans hd)⟩

theorem carries_range {cell : Cell α} (hcell : c.cells[id]? = some cell)
    (hconstant : ∀ values, cell ≠ .constant values) {start : Nat}
    (hsize : start + source.length ≤ cell.size) {f : List α → α}
    (h : ∀ d : Circuit α, d.cells[id]? = some cell → d.Extends c → d.Sound → ∀ (i : Nat)
      (q : Pin), source[i]? = some q → d.Shows ⟨id, start + i⟩ q f) :
      c.Carries source ⟨Bus.range id start source.length, f, true⟩ := by
  have hvaries : ∀ p ∈ Bus.range id start source.length, c.Varies p := by
    intro p hp
    obtain ⟨i, hi, rfl⟩ := Bus.mem_range.mp hp
    exact ⟨cell, hcell, by show start + i < cell.size; omega, hconstant⟩
  refine ⟨Bus.length_range _ _ _, fun p hp => (hvaries p hp).has, fun _ => hvaries,
    fun d hd hsound i p q hp hq => ?_⟩
  have hi : i < source.length := (List.getElem?_eq_some_iff.mp hq).1
  rw [Bus.getElem?_range hi] at hp
  cases hp
  exact h d (hd _ _ hcell) hd hsound i q hq

/-- While a feature is wired: the circuit it is wired into, the bus of the feature that it reads,
and the signals that there are. -/
structure Bench (base : Circuit α) (takes allowed : Nat → Prop) (source : Bus)
    (signals : List (Signal α)) (c : Circuit α) : Prop where
  wirable : c.Wirable takes allowed
  grown : c.Extends base
  source_ne : source ≠ []
  allows : allowed 1 ∧ allowed source.length
  carries : ∀ s ∈ signals, c.Carries source s

theorem Bench.mono {signals' : List (Signal α)} (hb : Bench base takes allowed source signals c)
    (h : ∀ s ∈ signals', s ∈ signals) : Bench base takes allowed source signals' c :=
  ⟨hb.wirable, hb.grown, hb.source_ne, hb.allows, fun s hs => hb.carries s (h s hs)⟩

theorem Bench.drop {t : Signal α} (hb : Bench base takes allowed source (s :: t :: signals) c) :
    Bench base takes allowed source (s :: signals) c :=
  hb.mono (List.forall_mem_cons.mpr
    ⟨List.mem_cons_self, fun _ h => List.mem_cons_of_mem _ (List.mem_cons_of_mem _ h)⟩)

theorem Bench.push (hb : Bench base takes allowed source signals c) (hd : d.Wirable takes allowed)
    (he : d.Extends c) (hs : d.Carries source s) :
    Bench base takes allowed source (s :: signals) d :=
  ⟨hd, he.trans hb.grown, hb.source_ne, hb.allows, List.forall_mem_cons.mpr ⟨hs, fun s hs =>
    (hb.carries s hs).mono he⟩⟩

end Circuit

namespace Assembly

open Circuit

variable {c base : Circuit α} {takes allowed : Nat → Prop} {source lhs rhs bus : Bus}
    {signals : List (Signal α)} {f g : List α → α}
  {Q : Bus → Circuit α → Prop}

theorem binary_succeeds {op : Arith} {varies : Bool}
    (hb : Bench base takes allowed source signals c) (hl : ⟨lhs, f, true⟩ ∈ signals)
    (hr : ⟨rhs, g, varies⟩ ∈ signals)
    (h : ∀ bus d, Bench base takes allowed source (⟨bus, fun xs => op.apply (f xs) (g xs), true⟩ ::
      signals) d → Q bus d) :
    (binary op lhs rhs).Succeeds c Q := by
  have hlhs := hb.carries _ hl
  have hrhs := hb.carries _ hr
  have hlen : lhs.length = source.length := hlhs.length_eq
  have hlen' : lhs.length = rhs.length := hlen.trans hrhs.length_eq.symm
  have hne : lhs ≠ [] := List.ne_nil_of_length_pos (hlen ▸ List.length_pos_iff.mpr hb.source_ne)
  refine place_succeeds hb.wirable ⟨hne, hlen', hlhs.varies rfl, hrhs.has⟩
    (hlen ▸ hb.allows.2 : allowed lhs.length) fun d hd he hcell => ?_
  rw [Cell.size, hlen]
  refine h _ d (hb.push hd he (carries_range hcell (by simp) (by simp [Cell.size, hlen]) ?_))
  intro e hcell' he' hsound i q hq
  have hi : i < source.length := (List.getElem?_eq_some_iff.mp hq).1
  obtain ⟨l, hl⟩ : ∃ l, lhs[i]? = some l := ⟨_, List.getElem?_eq_getElem (hlen ▸ hi)⟩
  obtain ⟨r, hr⟩ : ∃ r, rhs[i]? = some r := ⟨_, List.getElem?_eq_getElem (hlen' ▸ hlen ▸ hi)⟩
  rw [Nat.zero_add]
  exact hsound.shows_binary hcell' hl hr (hlhs.shows e (he'.trans he) hsound i l q hl hq)
    (hrhs.shows e (he'.trans he) hsound i r q hr hq)

theorem accumulator_succeeds (hb : Bench base takes allowed source signals c)
    (hf : ⟨bus, f, true⟩ ∈ signals)
    (h : ∀ bus d, Bench base takes allowed source (⟨bus, accumulate f, true⟩ :: signals) d →
      Q bus d) :
    (place (.accumulator bus)).Succeeds c Q := by
  have hbus := hb.carries _ hf
  have hlen : bus.length = source.length := hbus.length_eq
  have hne : bus ≠ [] := List.ne_nil_of_length_pos (hlen ▸ List.length_pos_iff.mpr hb.source_ne)
  refine place_succeeds hb.wirable ⟨hne, hbus.has⟩ (hlen ▸ hb.allows.2 : allowed bus.length)
    fun d hd he hcell => ?_
  rw [Cell.size, hlen]
  refine h _ d (hb.push hd he (carries_range hcell (by simp) (by simp [Cell.size, hlen]) ?_))
  intro e hcell' he' hsound i q hq
  have hi : i < source.length := (List.getElem?_eq_some_iff.mp hq).1
  obtain ⟨p, hp⟩ : ∃ p, bus[i]? = some p := ⟨_, List.getElem?_eq_getElem (hlen ▸ hi)⟩
  rw [Nat.zero_add]
  exact hsound.shows_accumulator hcell' hp (hbus.shows e (he'.trans he) hsound i p q hp hq)

theorem number_succeeds {n : Nat} (hb : Bench base takes allowed source signals c) (hn : 0 < n)
    (h : ∀ bus d,
      Bench base takes allowed source (⟨bus, fun _ => Scalar.ofNat n, false⟩ :: signals) d →
      Q bus d) :
    (number n source.length).Succeeds c Q := by
  refine .bind (place_succeeds hb.wirable ⟨n, hn, rfl⟩ hb.allows.1 fun d hd he hcell => ?_)
  refine succeeds_ofCircuit rfl (h _ d (hb.push hd he ⟨by simp, ?_, by simp, ?_⟩))
  · intro p hp
    obtain ⟨-, rfl⟩ := List.mem_replicate.mp hp
    exact ⟨_, hcell, Nat.one_pos⟩
  · intro e he' hsound i p q hp _
    obtain ⟨-, rfl⟩ := List.mem_replicate.mp (List.mem_of_getElem? hp)
    exact hsound.shows_constant (he' _ _ hcell) 0 q

omit [Scalar α] in
theorem delayTap_range {window id age : Nat} (hage : age < window) :
    Cell.delayTap source window (Bus.range id 0 (source.length * window)) age =
      .ok (Bus.range id (age * source.length) source.length) := by
  have hle : age * source.length + source.length ≤ source.length * window := by
    rw [Nat.mul_comm source.length, ← Nat.succ_mul]
    exact Nat.mul_le_mul_right _ hage
  have hslice : ((Bus.range id 0 (source.length * window)).drop (age * source.length)).take
    source.length = Bus.range id (age * source.length) source.length := by
    refine List.ext_getElem (by simp; omega) fun i hi hi' => ?_
    simp [Bus.range]
  simp only [Cell.delayTap, if_neg (Nat.not_le.mpr hage), Bus.slice?, Bus.length_range, if_pos hle,
    hslice]

theorem delay_succeeds {depth : Nat} (hb : Bench base takes allowed source signals c)
    (hdepth : 0 < depth) (hsize : allowed (source.length * depth))
    (hs : ⟨source, (earlier · 0), true⟩ ∈ signals)
    (h : ∀ id d, Bench base takes allowed source ((List.range depth).map
      (fun age => ⟨Bus.range id (age * source.length) source.length, (earlier · age), true⟩) ++
        signals) d → Q (Bus.range id 0 (source.length * depth)) d) :
        (place (.delay source depth)).Succeeds c Q := by
  refine place_succeeds hb.wirable ⟨hb.source_ne, hdepth, (hb.carries _ hs).has⟩ hsize
    fun d hd he hcell => ?_
  refine h _ d ⟨hd, he.trans hb.grown, hb.source_ne, hb.allows, List.forall_mem_append.mpr
    ⟨List.forall_mem_map.mpr fun age hage => ?_, fun s hs => (hb.carries s hs).mono he⟩⟩
  have hage : age < depth := List.mem_range.mp hage
  refine carries_range hcell (by simp) ?_ fun e hcell' _ hsound i q hq =>
    hsound.shows_delay hcell' hq hage
  rw [Cell.size, Nat.mul_comm source.length, ← Nat.succ_mul]
  exact Nat.mul_le_mul_right _ hage

theorem taps_succeeds {depth : Nat} {Q : List Bus → Circuit α → Prop}
    (hb : Bench base takes allowed source signals c) (hdepth : 0 < depth)
    (hsize : allowed (source.length * depth)) (hs : ⟨source, (earlier · 0), true⟩ ∈ signals)
    (h : ∀ (parts : List (Signal α)) d, parts ≠ [] → (∀ s ∈ parts, s.varies = true) →
      (∀ xs, parts.map (·.reading xs) = Feature.fit depth xs) →
      Bench base takes allowed source (parts ++ signals) d →
        Q (parts.map Signal.bus) d) : (taps source depth).Succeeds c Q := by
  refine .bind (delay_succeeds hb hdepth hsize hs fun id d hd => ?_)
  refine succeeds_mapM (fun age hage => by rw [delayTap_range (List.mem_range.mp hage)]; rfl) ?_
  have hparts := h _ d (by simpa using Nat.ne_of_gt hdepth) (by simp)
    (fun xs => by simp [Feature.fit_eq]) hd
  rwa [List.map_map] at hparts

theorem ago_succeeds {age : Nat} (hb : Bench base takes allowed source signals c)
    (hsize : allowed (source.length * (age + 1))) (hs : ⟨source, (earlier · 0), true⟩ ∈ signals)
    (h : ∀ bus d, Bench base takes allowed source (⟨bus, (earlier · age), true⟩ :: signals) d →
      Q bus d) :
    (ago source age).Succeeds c Q := by
  refine .bind (delay_succeeds hb (Nat.succ_pos age) hsize hs fun id d hd => ?_)
  refine succeeds_ofCircuit (delayTap_range (Nat.lt_succ_self age)) (h _ d (hd.mono ?_))
  rintro s (_ | ⟨_, hs⟩)
  · exact List.mem_append_left _ (List.mem_map.mpr ⟨age, List.self_mem_range_succ, rfl⟩)
  · exact List.mem_append_right _ hs

/-- Going through signals, each step making a signal of the one before and the next. -/
theorem foldlM_succeeds {step : Bus → Bus → Assembly α Bus} {k : List α → α → α → α}
    {parts : List (Signal α)}
    (hstep : ∀ s ∈ parts, ∀ bus f c Q, Bench base takes allowed source
      (⟨bus, f, true⟩ :: signals) c →
      (∀ bus' d, Bench base takes allowed source
        (⟨bus', fun xs => k xs (f xs) (s.reading xs), true⟩ :: signals) d → Q bus' d) →
      (step bus s.bus).Succeeds c Q)
    (hb : Bench base takes allowed source (⟨bus, f, true⟩ :: signals) c)
    (h : ∀ bus d, Bench base takes allowed source
      (⟨bus, fun xs => (parts.map (·.reading xs)).foldl (k xs) (f xs), true⟩ :: signals) d →
      Q bus d) :
    ((parts.map Signal.bus).foldlM step bus).Succeeds c Q := by
  induction parts generalizing bus f c with
  | nil => exact succeeds_pure (h bus c hb)
  | cons s parts ih =>
    obtain ⟨hs, hparts⟩ := List.forall_mem_cons.mp hstep
    exact .bind (hs bus f c _ hb fun bus' d hd => ih hparts hd h)

/-- Signals added up, from the first on. -/
theorem sum_succeeds {parts : List (Signal α)} (hb : Bench base takes allowed source signals c)
    (hne : parts ≠ []) (hparts : ∀ s ∈ parts, s ∈ signals ∧ s.varies = true)
    (h : ∀ bus d, Bench base takes allowed source
      (⟨bus, fun xs => addUp (parts.map (·.reading xs)), true⟩ :: signals) d → Q bus d) :
    (sum (parts.map Signal.bus)).Succeeds c Q := by
  obtain ⟨⟨bus, f, varies⟩, parts, rfl⟩ := List.exists_cons_of_ne_nil hne
  obtain ⟨⟨hs, rfl⟩, hrest⟩ := List.forall_mem_cons.mp hparts
  refine foldlM_succeeds (fun s hs bus f c Q hb h => ?_)
    (hb.mono (List.forall_mem_cons.mpr ⟨hs, fun _ h => h⟩)) h
  exact binary_succeeds hb List.mem_cons_self (List.mem_cons_of_mem _ (hrest s hs).1)
    fun bus' d hd => h bus' d hd.drop

theorem squaredDistance_succeeds {varies : Bool} (hb : Bench base takes allowed source signals c)
    (hl : ⟨lhs, f, true⟩ ∈ signals) (hr : ⟨rhs, g, varies⟩ ∈ signals)
    (h : ∀ bus d, Bench base takes allowed source
      (⟨bus, fun xs => (f xs - g xs) * (f xs - g xs), true⟩ :: signals) d → Q bus d) :
    (squaredDistance rhs lhs).Succeeds c Q := by
  refine .bind (binary_succeeds hb hl hr fun distance d hd => ?_)
  exact binary_succeeds hd List.mem_cons_self List.mem_cons_self fun bus e he => h bus e he.drop

/-- The squared distances of signals from one, added up from the first on. -/
theorem sumSquaredDistances_succeeds {parts : List (Signal α)} {varies : Bool}
    (hb : Bench base takes allowed source signals c) (hg : ⟨rhs, g, varies⟩ ∈ signals)
    (hne : parts ≠ []) (hparts : ∀ s ∈ parts, s ∈ signals ∧ s.varies = true)
    (h : ∀ bus d, Bench base takes allowed source
      (⟨bus, fun xs => addUp (parts.map fun s => (s.reading xs - g xs) * (s.reading xs - g xs)),
        true⟩ :: signals) d → Q bus d) :
        (sumSquaredDistances rhs (parts.map Signal.bus)).Succeeds c Q := by
  obtain ⟨⟨bus, f, varies⟩, parts, rfl⟩ := List.exists_cons_of_ne_nil hne
  obtain ⟨⟨hs, rfl⟩, hrest⟩ := List.forall_mem_cons.mp hparts
  refine .bind (squaredDistance_succeeds hb hs hg fun first d hd => ?_)
  refine foldlM_succeeds (k := fun xs v x => v + (x - g xs) * (x - g xs))
    (fun s hs bus f c Q hb h => ?_) hd fun bus e he => h bus e ?_
  · obtain ⟨lhs, reading, varies⟩ := s
    obtain ⟨hs, rfl⟩ := hrest _ hs
    refine .bind (squaredDistance_succeeds hb (List.mem_cons_of_mem _ hs)
      (List.mem_cons_of_mem _ hg) fun square d hd => ?_)
    exact binary_succeeds hd (List.mem_cons_of_mem _ List.mem_cons_self) List.mem_cons_self
      fun bus' e he => h bus' e he.drop.drop
  · simpa [addUp, List.foldl_map] using he

end Assembly

namespace Circuit

theorem bench_start {c : Circuit α} {takes allowed : Nat → Prop} {source : Bus}
    (hc : c.Wirable takes allowed) (hne : source ≠ []) (hallows : allowed 1 ∧ allowed source.length)
    (hsource : ∀ p ∈ source, c.Varies p) :
    Bench c takes allowed source [⟨source, (earlier · 0), true⟩] c := by
  refine ⟨hc, .refl c, hne, hallows, List.forall_mem_singleton.mpr
    ⟨rfl, fun p hp => (hsource p hp).has, fun _ => hsource, ?_⟩⟩
  intro d _ _ i p q hp hq
  cases hp.symm.trans hq
  exact d.shows_self p

end Circuit

namespace Feature

open Assembly Circuit

/-- What the circuit form of a feature shows for a component that has been these numbers. -/
def Statistic.wired (size : Nat) (xs : List α) : Statistic → α
  | mean => addUp (fit size xs) / Scalar.ofNat size
  | variance =>
    let m := addUp (fit size xs) / Scalar.ofNat size
    addUp ((fit size xs).map fun x => (x - m) * (x - m)) / Scalar.ofNat size
  | statistic => statistic.value size xs

variable {f : Feature α} {w : Window α} {c : Circuit α} {takes allowed : Nat → Prop} {source : Bus}
  {buses : Nat → Option Bus} {Q : Bus → Circuit α → Prop}

theorem wire_succeeds {statistic : Statistic} (hstage : f.stage = .ofWindow w statistic)
    (hsize : 0 < w.size) (hallows : allowed (source.length * w.size) ∧
      allowed (source.length * (w.size + 1)))
    (hbus : buses w.source = some source)
    (hb : Bench c takes allowed source [⟨source, (earlier · 0), true⟩] c)
    (h : ∀ bus d, Bench c takes allowed source [⟨bus, statistic.wired w.size, true⟩] d → Q bus d) :
    (f.wire buses).Succeeds c Q := by
  have hsource : sourceBus f.id buses w = (return source : Assembly α Bus) := by
    rw [sourceBus, hbus]
  unfold wire
  rw [hstage]
  cases statistic with
  | mean =>
    simp only [Stage.ofWindow, hsource, pure_bind]
    refine .bind (number_succeeds hb hsize fun n d hb => ?_)
    refine .bind (taps_succeeds hb hsize hallows.1
      (.tail _ (.head _)) fun parts d hne hparts hreading hb => ?_)
    refine .bind (sum_succeeds hb hne (fun s hs => ⟨List.mem_append_left _ hs, hparts s hs⟩)
      fun total d hb => ?_)
    refine binary_succeeds hb (.head _) (.tail _ (List.mem_append_right parts (.head _)))
      fun bus d hb => h bus d ?_
    simp only [hreading] at hb
    exact hb.mono (List.forall_mem_singleton.mpr (.head _))
  | variance =>
    simp only [Stage.ofWindow, hsource, pure_bind]
    refine .bind (number_succeeds hb hsize fun n d hb => ?_)
    refine .bind (taps_succeeds hb hsize hallows.1
      (.tail _ (.head _)) fun parts d hne hparts hreading hb => ?_)
    refine .bind (sum_succeeds hb hne (fun s hs => ⟨List.mem_append_left _ hs, hparts s hs⟩)
      fun total d hb => ?_)
    refine .bind (binary_succeeds hb (.head _) (.tail _ (List.mem_append_right parts (.head _)))
      fun mean d hb => ?_)
    refine .bind (sumSquaredDistances_succeeds hb (.head _) hne
      (fun s hs => ⟨.tail _ (.tail _ (List.mem_append_left _ hs)), hparts s hs⟩) fun squares d hb =>
        ?_)
    refine binary_succeeds hb (.head _)
      (.tail _ (.tail _ (.tail _ (List.mem_append_right parts (.head _))))) fun bus d hb =>
        h bus d ?_
    have hsquares : ∀ (xs : List α) (m : α),
      (parts.map fun s => (s.reading xs - m) * (s.reading xs - m)) =
        (fit w.size xs).map fun x => (x - m) * (x - m) := fun xs m => by
      rw [← hreading, List.map_map]
      rfl
    simp only [hsquares, hreading] at hb
    exact hb.mono (List.forall_mem_singleton.mpr (.head _))
  | incrementalMean =>
    simp only [Stage.ofWindow, hsource, pure_bind]
    refine .bind (number_succeeds hb hsize fun n d hb => ?_)
    refine .bind (ago_succeeds hb hallows.2 (.tail _ (.head _)) fun old d hb => ?_)
    refine .bind (binary_succeeds hb (.tail _ (.tail _ (.head _))) (.head _) fun change d hb => ?_)
    refine .bind (accumulator_succeeds hb (.head _) fun total d hb => ?_)
    refine binary_succeeds hb (.head _) (.tail _ (.tail _ (.tail _ (.head _)))) fun bus d hb =>
      h bus d ?_
    exact hb.mono (List.forall_mem_singleton.mpr (.head _))
  | incrementalVariance =>
    simp only [Stage.ofWindow, hsource, pure_bind]
    refine .bind (number_succeeds hb hsize fun n d hb => ?_)
    refine .bind (ago_succeeds hb hallows.2 (.tail _ (.head _)) fun old d hb => ?_)
    refine .bind (binary_succeeds hb (.tail _ (.tail _ (.head _))) (.head _) fun change d hb => ?_)
    refine .bind (accumulator_succeeds hb (.head _) fun total d hb => ?_)
    refine .bind (binary_succeeds hb (.head _) (.head _) fun totalSquared d hb => ?_)
    refine .bind (binary_succeeds hb (.head _) (List.mem_of_getElem? (i := 4) rfl)
      fun meanShare d hb => ?_)
    refine .bind (binary_succeeds hb (List.mem_of_getElem? (i := 6) rfl)
      (List.mem_of_getElem? (i := 6) rfl) fun newSquared d hb => ?_)
    refine .bind (binary_succeeds hb (List.mem_of_getElem? (i := 5) rfl)
      (List.mem_of_getElem? (i := 5) rfl) fun oldSquared d hb => ?_)
    refine .bind (binary_succeeds hb (.tail _ (.head _)) (.head _) fun changeSquares d hb => ?_)
    refine .bind (accumulator_succeeds hb (.head _) fun totalSquares d hb => ?_)
    refine .bind (binary_succeeds hb (.head _) (List.mem_of_getElem? (i := 4) rfl)
      fun deviation d hb => ?_)
    refine binary_succeeds hb (.head _) (List.mem_of_getElem? (i := 10) rfl) fun bus d hb =>
      h bus d ?_
    exact hb.mono (List.forall_mem_singleton.mpr (.head _))

end Feature
end StreamStats
