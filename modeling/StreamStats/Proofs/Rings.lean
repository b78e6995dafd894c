import StreamStats.History

/-! What a ring holds. Of all samples since the start, listed the newest first, it keeps as many as
it has slots, and finds each of them by its age. -/

namespace StreamStats
namespace History

variable {α : Type} {h : History α} {past : List (List α)} {sample : List α}

theorem slot_eq {n next age : Nat} (hnext : next < n) (hage : age < n) :
    (next + n - 1 - age) % n = if age < next then next - 1 - age else next + n - 1 - age := by
  split
  · have hturn : next + n - 1 - age = next - 1 - age + n := by omega
    rw [hturn, Nat.add_mod_right, Nat.mod_eq_of_lt (by omega)]
  · exact Nat.mod_eq_of_lt (by omega)

theorem slot_succ {n next age : Nat} (hnext : next < n) (hage : age + 1 < n) :
    ((next + 1) % n + n - 1 - (age + 1)) % n = (next + n - 1 - age) % n := by
  have hlt : (next + 1) % n < n := Nat.mod_lt _ (Nat.zero_lt_of_lt hnext)
  rw [slot_eq hlt hage, slot_eq hnext (by omega)]
  rcases Nat.lt_or_ge (next + 1) n with h | h
  · rw [Nat.mod_eq_of_lt h]
    split <;> split <;> omega
  · rw [show next + 1 = n by omega, Nat.mod_self, if_neg (Nat.not_lt_zero _), if_pos (by omega)]
    omega

theorem slot_newest {n next : Nat} (hnext : next < n) :
    ((next + 1) % n + n - 1 - 0) % n = next := by
  rw [slot_eq (Nat.mod_lt _ (Nat.zero_lt_of_lt hnext)) (by omega)]
  rcases Nat.lt_or_ge (next + 1) n with h | h
  · rw [Nat.mod_eq_of_lt h, if_pos (Nat.succ_pos next)]
    omega
  · rw [show next + 1 = n by omega, Nat.mod_self, if_neg (Nat.lt_irrefl 0)]
    omega

/-- The ring has been given these samples since it was last empty, the newest first. -/
structure Holds (h : History α) (past : List (List α)) : Prop where
  next_lt : h.next < h.capacity
  length_eq : h.length = min past.length h.capacity
  total_eq : h.total = past.length
  width_eq : h.width = past.head?.map List.length
  widths : ∀ s ∈ past, h.width = some s.length
  slots : ∀ age < h.length, h.slots[(h.next + h.capacity - 1 - age) % h.capacity]? = past[age]?

theorem holds_ofCapacity {n : Nat} (hn : 0 < n) :
    ∃ h : History α, ofCapacity n = .ok h ∧ h.capacity = n ∧ h.Holds [] := by
  refine ⟨⟨Array.replicate n [], 0, 0, none, 0⟩, if_neg (Nat.ne_of_gt hn), by simp [capacity], ?_⟩
  constructor <;> simp [capacity, hn]

namespace Holds

theorem clear (hh : h.Holds past) : h.clear.Holds [] := by
  have hpos : 0 < h.slots.size := Nat.zero_lt_of_lt hh.next_lt
  constructor <;> simp [History.clear, capacity, hpos]

/-- A sample is taken if it is the first one or as wide as those before. -/
theorem admits_iff (hh : h.Holds past) {width : Nat} :
    h.admits width = .ok () ↔ ∀ s ∈ past.head?, s.length = width := by
  rw [admits_eq_ok_iff, hh.width_eq]
  cases past <;> simp

theorem record_of_ne {last : List α} (hh : h.Holds (last :: past))
    (hs : last.length ≠ sample.length) :
    h.record sample = .error (.widthMismatch last.length sample.length) := by
  have hwidth : h.width = some last.length := hh.width_eq
  simp only [History.record, admits, hwidth, if_neg hs]
  rfl

theorem record (hh : h.Holds past) (hs : h.admits sample.length = .ok ()) :
    ∃ h', h.record sample = .ok h' ∧ h'.capacity = h.capacity ∧ h'.Holds (sample :: past) := by
  have hnext := hh.next_lt
  have hlength := hh.length_eq
  refine ⟨{
    slots := h.slots.setIfInBounds h.next sample
    next := (h.next + 1) % h.capacity
    length := min (h.length + 1) h.capacity
    width := some sample.length
    total := h.total + 1 }, by simp only [History.record, hs]; rfl, by simp [capacity], ?_⟩
  constructor <;> simp only [capacity, Array.size_setIfInBounds] at hnext hlength ⊢
  · exact Nat.mod_lt _ (Nat.zero_lt_of_lt hnext)
  · rw [List.length_cons]
    omega
  · rw [hh.total_eq, List.length_cons]
  · rfl
  · refine List.forall_mem_cons.mpr ⟨rfl, fun s hs' => ?_⟩
    have hw := hh.widths s hs'
    rcases admits_eq_ok_iff.mp hs with hn | hn <;> rw [hn] at hw
    · cases hw
    · exact hw
  · intro age hage
    obtain ⟨hle, hlt⟩ := Nat.lt_min.mp hage
    rw [Array.getElem?_setIfInBounds]
    -- the newest sample is in the slot just written, all others are one write older than before
    cases age with
    | zero => rw [slot_newest hnext, if_pos rfl, if_pos hnext, List.getElem?_cons_zero]
    | succ age =>
      have hother : h.next ≠ (h.next + h.slots.size - 1 - age) % h.slots.size := by
        rw [slot_eq hnext (by omega)]
        split <;> omega
      rw [slot_succ hnext hlt, if_neg hother, List.getElem?_cons_succ]
      exact hh.slots age (by omega)

/-- No sample is found before the first one. -/
theorem back?_of_le (hh : h.Holds past) {age : Nat} (hage : past.length ≤ age) :
    h.back? age = none := by
  rw [back?, hh.total_eq, if_pos (Or.inr hage)]

theorem back?_of_lt (hh : h.Holds past) {age : Nat} (hage : age < past.length) :
    h.back? age = past[min age (h.length - 1)]? := by
  have hlength := hh.length_eq
  have hnext := hh.next_lt
  rw [back?, hh.total_eq, if_neg (by omega)]
  exact hh.slots _ (by omega)

theorem back?_eq (hh : h.Holds past) {age : Nat} (hage : age < h.capacity) :
    h.back? age = past[age]? := by
  rcases Nat.lt_or_ge age past.length with hlt | hle
  · have hlength := hh.length_eq
    rw [hh.back?_of_lt hlt, Nat.min_eq_left (by omega)]
  · rw [hh.back?_of_le hle, List.getElem?_eq_none hle]

theorem recent_eq (hh : h.Holds past) : h.recent = past.take h.capacity := by
  have htake : ∀ n ≤ h.capacity, (List.range n).filterMap h.back? = past.take n := by
    intro n
    induction n with
    | zero => simp
    | succ n ih =>
      intro hn
      rw [List.range_succ, List.filterMap_append, ih (by omega),
        List.take_add_one, ← hh.back?_eq hn]
      cases hb : h.back? n <;> simp [hb]
  rw [recent, htake _ (hh.length_eq ▸ Nat.min_le_right _ _), hh.length_eq, List.take_eq_take_iff]
  omega

end Holds
end History
end StreamStats
