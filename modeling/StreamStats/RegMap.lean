import Std.Data.ExtTreeMap

/-! Finite maps from registers. Two maps are equal when every register has the same value in
both. -/

namespace StreamStats

/-- Registers are numbered without end. Where a number is kept in 32 bits it is taken not to run
over: code that mentions register 4294967295, behind which there is no next one, is outside of what
is modelled. -/
abbrev Reg := Nat

structure RegMap (β : Type) where
  entries : Std.ExtTreeMap Nat β

namespace RegMap

variable {β : Type}

def empty : RegMap β := ⟨∅⟩

def get? (m : RegMap β) (r : Reg) : Option β := m.entries[r]?

def set (m : RegMap β) (r : Reg) (b : β) : RegMap β := ⟨m.entries.insert r b⟩

def contains (m : RegMap β) (r : Reg) : Bool := (m.get? r).isSome

@[simp] theorem get?_empty (r : Reg) : (empty : RegMap β).get? r = none := by
  simp [empty, get?]

@[simp] theorem get?_set (m : RegMap β) (r r' : Reg) (b : β) :
    (m.set r b).get? r' = if r' = r then some b else m.get? r' := by
  simp only [set, get?, Std.ExtTreeMap.getElem?_insert, Nat.compare_eq_eq]
  by_cases h : r' = r
  · simp [h]
  · simp [h, Ne.symm h]

@[ext] theorem ext {m n : RegMap β} (h : ∀ r, m.get? r = n.get? r) : m = n := by
  rcases m with ⟨m⟩
  rcases n with ⟨n⟩
  congr 1
  exact Std.ExtTreeMap.ext_getElem? h

def note (m : RegMap Nat) (r : Reg) : RegMap Nat := m.set r ((m.get? r).getD 0 + 1)

/-- How often each register occurs; those that do not have no entry. -/
def tally (rs : List Reg) : RegMap Nat := rs.foldl note empty

@[simp] theorem getD_foldl_note (m : RegMap Nat) (rs : List Reg) (r : Reg) :
    ((rs.foldl note m).get? r).getD 0 = (m.get? r).getD 0 + rs.count r := by
  induction rs generalizing m with
  | nil => simp
  | cons r' rs ih =>
    simp only [List.foldl_cons, ih, note, get?_set, List.count_cons]
    by_cases h : r = r'
    · subst h
      simp
      omega
    · simp [h, beq_false_of_ne (Ne.symm h)]

@[simp] theorem getD_tally (rs : List Reg) (r : Reg) : ((tally rs).get? r).getD 0 = rs.count r := by
  simp [tally]

@[simp] theorem contains_foldl_note (m : RegMap Nat) (rs : List Reg) (r : Reg) :
    (rs.foldl note m).contains r = (m.contains r || rs.contains r) := by
  induction rs generalizing m with
  | nil => simp
  | cons r' rs ih =>
    rw [List.foldl_cons, ih]
    simp only [note, contains, get?_set, List.contains_cons]
    by_cases h : r = r'
    · simp [h]
    · simp [h, beq_false_of_ne h]

@[simp] theorem contains_tally (rs : List Reg) (r : Reg) :
    (tally rs).contains r = rs.contains r := by
  rw [tally, contains_foldl_note]
  simp [contains]

end RegMap
end StreamStats
