import StreamStats.Proofs.Lists
import StreamStats.Proofs.Rings

/-! Rings under any use. Whatever is recorded, rejected, cleared and copied, everything that a ring
tells follows from the samples that it has accepted since it was last cleared. -/

namespace StreamStats
namespace History

variable {α : Type}

/-- What a ring of `n` slots tells, given the samples accepted since it was last cleared, the newest
first. -/
structure Tells (n : Nat) (h : History α) (past : List (List α)) : Prop where
  capacity_eq : h.capacity = n
  back?_eq_none_iff : ∀ age, h.back? age = none ↔ past.length ≤ age
  back?_eq : ∀ age < past.length, h.back? age = past[min age (min past.length n - 1)]?
  recent_eq : h.recent = past.take n
  length_eq : h.length = min past.length n
  isEmpty_iff : h.isEmpty = true ↔ past = []
  isFull_iff : h.isFull = true ↔ n ≤ past.length
  width_eq : h.width = past.head?.map List.length
  total_eq : h.total = past.length
  record_eq_error_iff : ∀ sample e, h.record sample = .error e ↔
    ∃ last ∈ past.head?, last.length ≠ sample.length ∧ e = .widthMismatch last.length sample.length

theorem Holds.tells {h : History α} {past : List (List α)} (hh : h.Holds past) :
    Tells h.capacity h past where
  capacity_eq := rfl
  back?_eq_none_iff age := by
    constructor
    · intro hnone
      by_contra hlt
      rw [hh.back?_of_lt (Nat.not_le.mp hlt), List.getElem?_eq_none_iff] at hnone
      omega
    · exact hh.back?_of_le
  back?_eq age hage := by rw [hh.back?_of_lt hage, hh.length_eq]
  recent_eq := hh.recent_eq
  length_eq := hh.length_eq
  isEmpty_iff := by
    have hpos : 0 < h.capacity := Nat.zero_lt_of_lt hh.next_lt
    rw [isEmpty, beq_iff_eq, hh.length_eq, ← List.length_eq_zero_iff]
    omega
  isFull_iff := by
    rw [isFull, beq_iff_eq, hh.length_eq]
    omega
  width_eq := hh.width_eq
  total_eq := hh.total_eq
  record_eq_error_iff sample e := by
    cases past with
    | nil =>
      have hadmits : h.admits sample.length = .ok () := hh.admits_iff.mpr (by simp)
      obtain ⟨h', hr, -⟩ := hh.record hadmits
      simp [hr]
    | cons last past =>
      by_cases hw : last.length = sample.length
      · have hadmits : h.admits sample.length = .ok () := hh.admits_iff.mpr (by simpa using hw)
        obtain ⟨h', hr, -⟩ := hh.record hadmits
        simp [hr, hw]
      · simp [hh.record_of_ne hw, hw, eq_comm (a := e)]

/-- What is done with rings, each told by its number. -/
inductive Deed (α : Type) where
  | record (i : Nat) (sample : List α)
  | clear (i : Nat)
  /-- The copy is numbered behind the others. -/
  | clone (i : Nat)

/-- A ring that rejects a sample stays as it was. -/
def perform (rings : List (History α)) : Deed α → List (History α)
  | .record i sample => rings.modify i fun h =>
    match h.record sample with
    | .ok h' => h'
    | .error _ => h
  | .clear i => rings.modify i clear
  | .clone i => rings ++ rings[i]?.toList

/-- The samples accepted by each ring since it was last cleared, the newest first. A sample is
accepted if it is the first one or as wide as the one before. -/
def remember (pasts : List (List (List α))) : Deed α → List (List (List α))
  | .record i sample => pasts.modify i fun past =>
    if ∀ last ∈ past.head?, last.length = sample.length then sample :: past else past
  | .clear i => pasts.modify i fun _ => []
  | .clone i => pasts ++ pasts[i]?.toList

def HoldsIn (n : Nat) (h : History α) (past : List (List α)) : Prop := h.capacity = n ∧ h.Holds past

theorem forall₂_perform {n : Nat} {rings : List (History α)} {pasts : List (List (List α))}
    (h : List.Forall₂ (HoldsIn n) rings pasts) (deed : Deed α) :
    List.Forall₂ (HoldsIn n) (perform rings deed) (remember pasts deed) := by
  cases deed with
  | record i sample =>
    refine forall₂_modify h i fun h past ⟨hn, hh⟩ => ?_
    cases hs : h.admits sample.length with
    | ok _ =>
      obtain ⟨h', hr, hc, hh'⟩ := hh.record hs
      simp only [hr, if_pos (hh.admits_iff.mp hs)]
      exact ⟨hc.trans hn, hh'⟩
    | error e =>
      have hall : ¬∀ last ∈ past.head?, last.length = sample.length := by
        rw [← hh.admits_iff, hs]
        simp
      have hr : h.record sample = .error e := by
        simp only [record, hs]
        rfl
      simp only [hr, if_neg hall]
      exact ⟨hn, hh⟩
  | clear i => exact forall₂_modify h i fun h past hh => ⟨(capacity_clear h).trans hh.1, hh.2.clear⟩
  | clone i => exact List.rel_append h (forall₂_getElem? h i)

theorem forall₂_foldl_perform {n : Nat} (deeds : List (Deed α)) {rings : List (History α)}
    {pasts : List (List (List α))} (h : List.Forall₂ (HoldsIn n) rings pasts) :
    List.Forall₂ (HoldsIn n) (deeds.foldl perform rings) (deeds.foldl remember pasts) := by
  induction deeds generalizing rings pasts with
  | nil => exact h
  | cons deed deeds ih => exact ih (forall₂_perform h deed)

/-- Whatever is done with a new ring and with copies of it, each of them tells what follows from the
samples that it has accepted. -/
theorem tells_of_ofCapacity {n : Nat} (hn : 1 ≤ n) (deeds : List (Deed α)) :
    ∃ h : History α, ofCapacity n = .ok h ∧
      List.Forall₂ (Tells n) (deeds.foldl perform [h]) (deeds.foldl remember [[]]) := by
  obtain ⟨h, hnew, hc, hh⟩ := holds_ofCapacity (α := α) hn
  refine ⟨h, hnew, (forall₂_foldl_perform deeds (.cons ⟨hc, hh⟩ .nil)).imp fun h past hh => ?_⟩
  exact hh.1 ▸ hh.2.tells

/-- A ring turns over after it was cleared, while its copy keeps samples of another width. -/
theorem tells_of_ofCapacity_two :
    1 ≤ 2 ∧ ∃ h : History Int, ofCapacity 2 = .ok h ∧
      List.Forall₂ (Tells 2)
        ([.record 0 [1, 2], .record 0 [3], .clone 0, .clear 0, .record 0 [4], .record 0 [5],
          .record 0 [6], .record 1 [7, 8], .record 1 [9]].foldl perform [h])
        [[[6], [5], [4]], [[7, 8], [1, 2]]] :=
  ⟨by decide, tells_of_ofCapacity (by decide) _⟩

end History
end StreamStats
