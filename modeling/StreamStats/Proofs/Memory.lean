import Mathlib.Data.Set.Basic
import StreamStats.Machine

/-! Memory as a map from places to values, and what single accesses do to it. An access either finds
all its places, and is then a plain look-up or a row of plain writes, or it ends out of bounds. -/

namespace StreamStats

variable {α : Type}

namespace Memory

@[simp] theorem getElem?_write (m : Memory α) (s i t : Nat) (v : α) :
    (m.write s i v)[t]? = if s = t then m[t]?.map (·.setIfInBounds i v) else m[t]? := by
  simp [write, Array.getElem?_modify]

@[simp] theorem size_write (m : Memory α) (s i : Nat) (v : α) : (m.write s i v).size = m.size := by
  simp [write]

@[simp] theorem sizeOf_write (m : Memory α) (s i t : Nat) (v : α) :
    (m.write s i v).sizeOf t = m.sizeOf t := by
  simp only [sizeOf, getElem?_write]
  by_cases h : s = t
  · rw [if_pos h]
    cases m[t]? <;> simp
  · rw [if_neg h]

theorem sizeOf_eq {m : Memory α} {s : Nat} {values : Array α} (h : m[s]? = some values) :
    m.sizeOf s = values.size := by
  simp [sizeOf, h]

theorem write_comm (m : Memory α) {s i t j : Nat} (v w : α) (h : s ≠ t ∨ i ≠ j) :
    (m.write s i v).write t j w = (m.write t j w).write s i v := by
  apply Array.ext_getElem?
  intro u
  simp only [getElem?_write]
  by_cases hs : s = u <;> by_cases ht : t = u
  · subst hs
    have hij : i ≠ j := h.resolve_left fun hn => hn ht.symm
    cases m[s]? with
    | none => simp [ht]
    | some values => simp [ht, Array.setIfInBounds_comm _ _ hij]
  all_goals simp [hs, ht]

/-- All places that an access reaches at a count exist. -/
def Holds (m : Memory α) (a : Address) (count lanes : Nat) : Prop :=
  ∀ lane < lanes, 0 ≤ a.index count lane ∧ a.index count lane < m.sizeOf a.segment

def HoldsFrom (m : Memory α) (a : Address) (count lane lanes : Nat) : Prop :=
  ∀ k < lanes, 0 ≤ a.index count (lane + k) ∧ a.index count (lane + k) < m.sizeOf a.segment

@[simp] theorem holdsFrom_zero {m : Memory α} {a : Address} {count lanes : Nat} :
    m.HoldsFrom a count 0 lanes ↔ m.Holds a count lanes := by
  simp [HoldsFrom, Holds]

@[simp] theorem holdsFrom_succ {m : Memory α} {a : Address} {count lane lanes : Nat} :
    m.HoldsFrom a count lane (lanes + 1) ↔
      (0 ≤ a.index count lane ∧ a.index count lane < m.sizeOf a.segment) ∧
      m.HoldsFrom a count (lane + 1) lanes := by
  simp only [HoldsFrom, Nat.forall_lt_succ_left, Nat.add_zero, Nat.add_right_comm lane 1,
    Nat.add_assoc]

@[simp] theorem holdsFrom_write {m : Memory α} {a : Address} {count lane lanes s i : Nat} {v : α} :
    (m.write s i v).HoldsFrom a count lane lanes ↔ m.HoldsFrom a count lane lanes := by
  simp only [HoldsFrom, sizeOf_write]

@[simp] theorem locate_eq_ok {m : Memory α} {a : Address} {count lane : Nat}
    (h : 0 ≤ a.index count lane ∧ a.index count lane < m.sizeOf a.segment) :
    m.locate a count lane = .ok (a.index count lane).toNat := by
  simp only [locate, if_pos h]

theorem locate_eq_error {m : Memory α} {a : Address} {count lane : Nat}
    (h : ¬(0 ≤ a.index count lane ∧ a.index count lane < m.sizeOf a.segment)) :
    m.locate a count lane = .error (.outOfBounds a.segment (a.index count lane)
      (m.sizeOf a.segment)) := by
  simp only [locate, if_neg h]

/-- Write values to neighbouring lanes, the first being `lane`. -/
def writeFrom (dst : Address) (count : Nat) : Nat → List α → Memory α → Memory α
  | _, [], m => m
  | lane, value :: values, m =>
    writeFrom dst count (lane + 1) values (m.write dst.segment (dst.index count lane).toNat value)

@[simp] theorem size_writeFrom (dst : Address) (count lane : Nat) (values : List α) (m : Memory α) :
    (writeFrom dst count lane values m).size = m.size := by
  induction values generalizing lane m with
  | nil => rfl
  | cons value values ih => simp [writeFrom, ih]

@[simp] theorem sizeOf_writeFrom (dst : Address) (count lane : Nat) (values : List α) (m : Memory α)
    (t : Nat) : (writeFrom dst count lane values m).sizeOf t = m.sizeOf t := by
  induction values generalizing lane m with
  | nil => rfl
  | cons value values ih => simp [writeFrom, ih]

@[simp] theorem getElem?_writeFrom_of_ne {dst : Address} {t : Nat} (h : dst.segment ≠ t)
    (count lane : Nat) (values : List α) (m : Memory α) :
    (writeFrom dst count lane values m)[t]? = m[t]? := by
  induction values generalizing lane m with
  | nil => rfl
  | cons value values ih => simp [writeFrom, ih, h]

variable [Scalar α]

def value (m : Memory α) (s i : Nat) : α := ((m[s]?).bind (·[i]?)).getD 0

def valueAt (m : Memory α) (a : Address) (count lane : Nat) : α :=
  m.value a.segment (a.index count lane).toNat

theorem value_write (m : Memory α) (s i t j : Nat) (v : α) :
    (m.write s i v).value t j = if s = t ∧ i = j ∧ j < m.sizeOf t then v else m.value t j := by
  simp only [value, getElem?_write, sizeOf]
  by_cases hs : s = t
  · subst hs
    obtain hm | ⟨values, hm⟩ := Option.eq_none_or_eq_some m[s]?
    · simp [hm]
    · simp only [hm, if_true, Option.map_some, Option.bind_some, Option.getD_some, true_and,
        Array.getElem?_setIfInBounds]
      by_cases hi : i = j
      · subst hi
        by_cases hl : i < values.size <;> simp [hl]
      · simp [hi]
  · simp [hs]

@[simp] theorem value_write_of_ne {m : Memory α} {s i t j : Nat} (v : α) (h : s ≠ t ∨ i ≠ j) :
    (m.write s i v).value t j = m.value t j := by
  rw [value_write, if_neg]
  rintro ⟨hs, hi, -⟩
  exact h.elim (· hs) (· hi)

theorem read_eq_ok {m : Memory α} {a : Address} {count lane : Nat}
    (h : 0 ≤ a.index count lane ∧ a.index count lane < m.sizeOf a.segment) :
    m.read a count lane = .ok (m.valueAt a count lane) := by
  simp only [read, locate_eq_ok h]
  rfl

theorem read_eq_error {m : Memory α} {a : Address} {count lane : Nat}
    (h : ¬(0 ≤ a.index count lane ∧ a.index count lane < m.sizeOf a.segment)) :
    m.read a count lane = .error (.outOfBounds a.segment (a.index count lane)
      (m.sizeOf a.segment)) := by
  simp only [read, locate_eq_error h]
  rfl

end Memory

/-- The values that a value stands for in so many lanes: a single one is repeated. -/
def stretch (lanes : Nat) : List α → List α
  | [value] => List.replicate lanes value
  | values => values

@[simp] theorem stretch_of_length_ne_one {lanes : Nat} {values : List α} (h : values.length ≠ 1) :
    stretch lanes values = values := by
  match values, h with
  | [], _ => rfl
  | _ :: _ :: _, _ => rfl

theorem length_stretch {lanes : Nat} {values : List α}
    (h : values.length = 1 ∨ values.length = lanes) : (stretch lanes values).length = lanes := by
  match values, h with
  | [], h => simpa [stretch] using h
  | [_], _ => simp [stretch]
  | _ :: _ :: _, h => simpa [stretch] using h

namespace Exec

theorem bind_of_ok {β γ : Type} {x : Exec α β} {m n : Memory α} {b : β} (h : x m = .ok b n)
    (f : β → Exec α γ) : (x >>= f) m = f b n := by
  simp only [bind, EStateM.bind, h]

theorem bind_of_error {β γ : Type} {x : Exec α β} {m n : Memory α} {e : Fault}
    (h : x m = .error e n) (f : β → Exec α γ) : (x >>= f) m = .error e n := by
  simp only [bind, EStateM.bind, h]

@[simp] theorem pure_apply {β : Type} (b : β) (m : Memory α) : (pure b : Exec α β) m = .ok b m :=
  rfl

@[simp] theorem lift_ok_apply {β : Type} (b : β) (m : Memory α) :
    (lift (.ok b) : Exec α β) m = .ok b m := rfl

@[simp] theorem lift_error_apply {β : Type} (e : Fault) (m : Memory α) :
    (lift (.error e) : Exec α β) m = .error e m := rfl

/-- A run that ends has come through both of its parts. -/
theorem bind_eq_ok {β γ : Type} {x : Exec α β} {f : β → Exec α γ} {m m' : Memory α} {c : γ}
    (h : (x >>= f) m = .ok c m') : ∃ b m₁, x m = .ok b m₁ ∧ f b m₁ = .ok c m' := by
  cases hx : x m with
  | ok b m₁ => exact ⟨b, m₁, rfl, by rwa [bind_of_ok hx] at h⟩
  | error e m₁ =>
    rw [bind_of_error hx] at h
    cases h

def OutOfBounds {β : Type} (r : EStateM.Result Fault (Memory α) β) : Prop :=
  ∃ s i n m, r = .error (.outOfBounds s i n) m

@[simp] theorem storeLane_of_holds {dst : Address} {count lane : Nat} {m : Memory α}
    (h : 0 ≤ dst.index count lane ∧ dst.index count lane < m.sizeOf dst.segment) (v : α) :
    storeLane dst count lane v m = .ok () (m.write dst.segment (dst.index count lane).toNat v) := by
  have hl : lift (m.locate dst count lane) m = .ok (dst.index count lane).toNat m := by
    rw [Memory.locate_eq_ok h, lift_ok_apply]
  exact bind_of_ok (x := get >>= fun m => lift (m.locate dst count lane)) hl _

theorem storeLane_of_not_holds {dst : Address} {count lane : Nat} {m : Memory α}
    (h : ¬(0 ≤ dst.index count lane ∧ dst.index count lane < m.sizeOf dst.segment)) (v : α) :
    storeLane dst count lane v m =
      .error (.outOfBounds dst.segment (dst.index count lane) (m.sizeOf dst.segment)) m := by
  have hl : lift (m.locate dst count lane) m =
      .error (.outOfBounds dst.segment (dst.index count lane) (m.sizeOf dst.segment)) m := by
    rw [Memory.locate_eq_error h, lift_error_apply]
  exact bind_of_error (x := get >>= fun m => lift (m.locate dst count lane)) hl _

theorem storeFrom_of_holds {dst : Address} {count : Nat} {values : List α} {lane : Nat}
    {m : Memory α} (h : m.HoldsFrom dst count lane values.length) :
    storeFrom dst count lane values m = .ok () (Memory.writeFrom dst count lane values m) := by
  induction values generalizing lane m with
  | nil => rfl
  | cons value values ih =>
    obtain ⟨h0, hrest⟩ := Memory.holdsFrom_succ.mp h
    simp only [storeFrom, Memory.writeFrom]
    rw [bind_of_ok (storeLane_of_holds h0 value)]
    exact ih (Memory.holdsFrom_write.mpr hrest)

theorem storeFrom_of_not_holds {dst : Address} {count : Nat} {values : List α} {lane : Nat}
    {m : Memory α} (h : ¬m.HoldsFrom dst count lane values.length) :
    OutOfBounds (storeFrom dst count lane values m) := by
  induction values generalizing lane m with
  | nil => simp [Memory.HoldsFrom] at h
  | cons value values ih =>
    rw [List.length_cons, Memory.holdsFrom_succ, not_and] at h
    simp only [storeFrom]
    by_cases h0 : 0 ≤ dst.index count lane ∧ dst.index count lane < m.sizeOf dst.segment
    · rw [bind_of_ok (storeLane_of_holds h0 value)]
      exact ih (mt Memory.holdsFrom_write.mp (h h0))
    · rw [bind_of_error (storeLane_of_not_holds h0 value)]
      exact ⟨_, _, _, _, rfl⟩

theorem store_eq_storeFrom {lanes : Nat} {values : List α}
    (h : values.length = 1 ∨ values.length = lanes) (dst : Address) (count : Nat) :
    store dst count lanes values = storeFrom dst count 0 (stretch lanes values) := by
  unfold store
  split
  · exact spread_eq_storeFrom _ _ _ _ _
  · rename_i hv
    have hl : values.length ≠ 1 := by
      intro h1
      obtain ⟨v, rfl⟩ := List.length_eq_one_iff.mp h1
      exact hv v rfl
    rw [if_pos (h.resolve_left hl), stretch_of_length_ne_one hl]

theorem store_of_mismatch {lanes : Nat} {values : List α}
    (h : ¬(values.length = 1 ∨ values.length = lanes)) (dst : Address) (count : Nat)
    (m : Memory α) :
    store dst count lanes values m = .error (.laneMismatch lanes values.length) m := by
  unfold store
  split
  · simp at h
  · rw [if_neg fun hl => h (Or.inr hl)]
    rfl

theorem store_of_holds {dst : Address} {count lanes : Nat} {values : List α} {m : Memory α}
    (h : values.length = 1 ∨ values.length = lanes) (hm : m.Holds dst count lanes) :
    store dst count lanes values m =
      .ok () (Memory.writeFrom dst count 0 (stretch lanes values) m) := by
  rw [store_eq_storeFrom h]
  apply storeFrom_of_holds
  rwa [length_stretch h, Memory.holdsFrom_zero]

theorem store_of_not_holds {dst : Address} {count lanes : Nat} {values : List α} {m : Memory α}
    (h : values.length = 1 ∨ values.length = lanes) (hm : ¬m.Holds dst count lanes) :
    OutOfBounds (store dst count lanes values m) := by
  rw [store_eq_storeFrom h]
  apply storeFrom_of_not_holds
  rwa [length_stretch h, Memory.holdsFrom_zero]

variable [Scalar α]

theorem readLane_of_holds {src : Address} {count lane : Nat} {m : Memory α}
    (h : 0 ≤ src.index count lane ∧ src.index count lane < m.sizeOf src.segment)
    (values : Array α) :
    (return values.push (← lift (m.read src count lane)) : Exec α (Array α)) m =
      .ok (values.push (m.valueAt src count lane)) m := by
  rw [Memory.read_eq_ok h]
  rfl

theorem readLane_of_not_holds {src : Address} {count lane : Nat} {m : Memory α}
    (h : ¬(0 ≤ src.index count lane ∧ src.index count lane < m.sizeOf src.segment))
    (values : Array α) :
    (return values.push (← lift (m.read src count lane)) : Exec α (Array α)) m =
      .error (.outOfBounds src.segment (src.index count lane) (m.sizeOf src.segment)) m := by
  rw [Memory.read_eq_error h]
  rfl

theorem readLanes_of_holds {src : Address} {count : Nat} {m : Memory α} {n lane : Nat}
    (h : m.HoldsFrom src count lane n) (values : Array α) :
    iterate (fun lane values => return values.push (← lift (m.read src count lane))) 1 n lane values
      m = .ok (values ++ ((List.range' lane n).map (m.valueAt src count)).toArray) m := by
  induction n generalizing lane values with
  | zero => simp [iterate]
  | succ n ih =>
    obtain ⟨h0, hrest⟩ := Memory.holdsFrom_succ.mp h
    simp only [iterate, List.range'_succ]
    rw [bind_of_ok (readLane_of_holds h0 values), ih hrest]
    simp

theorem readLanes_of_not_holds {src : Address} {count : Nat} {m : Memory α} {n lane : Nat}
    (h : ¬m.HoldsFrom src count lane n) (values : Array α) :
    OutOfBounds
      (iterate (fun lane values => return values.push (← lift (m.read src count lane))) 1 n lane
        values m) := by
  induction n generalizing lane values with
  | zero => simp [Memory.HoldsFrom] at h
  | succ n ih =>
    rw [Memory.holdsFrom_succ, not_and] at h
    simp only [iterate]
    by_cases h0 : 0 ≤ src.index count lane ∧ src.index count lane < m.sizeOf src.segment
    · rw [bind_of_ok (readLane_of_holds h0 values)]
      exact ih (h h0) _
    · rw [bind_of_error (readLane_of_not_holds h0 values)]
      exact ⟨_, _, _, _, rfl⟩

@[simp] theorem load_of_holds {src : Address} {count lanes : Nat} {m : Memory α}
    (h : m.Holds src count lanes) :
    load src count lanes m = .ok ((List.range lanes).map (m.valueAt src count)) m := by
  refine (bind_of_ok (readLanes_of_holds (Memory.holdsFrom_zero.mpr h) #[])
    fun values => (pure values.toList : Exec α (List α))).trans ?_
  simp [List.range_eq_range']

theorem load_of_not_holds {src : Address} {count lanes : Nat} {m : Memory α}
    (h : ¬m.Holds src count lanes) : OutOfBounds (load src count lanes m) := by
  obtain ⟨s, i, n, m', hr⟩ := readLanes_of_not_holds (mt Memory.holdsFrom_zero.mp h) #[]
  exact ⟨s, i, n, m', bind_of_error hr _⟩

end Exec
end StreamStats
