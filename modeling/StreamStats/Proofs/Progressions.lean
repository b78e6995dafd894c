import StreamStats.Proofs.Elements

/-! Buses that progress evenly, which are those that loops can go along. A progression is found
wherever there is one, and it stands for the pins of its bus and for no others: at every count, the
address that moves along it is at the pin that straight-line code goes to by itself. -/

namespace StreamStats

namespace Progression

/-- The pins of a progression, in numbers that no element bounds. -/
def places (g : Progression) : List (Nat × Int) :=
  (List.range g.length).map fun i : Nat => (g.cell, (g.start : Int) + i * g.stride)

end Progression

namespace Bus

variable {b : Bus} {cell : Nat} {stride position : Int}

/-- The pins lie on one cell, at even distances forwards, backwards or none. -/
def Even (b : Bus) : Prop :=
  ∃ (cell : Nat) (start stride : Int), ∀ (i : Nat) (p : Pin), b[i]? = some p →
    p.cell = cell ∧ p.element = start + i * stride

theorem follows_iff : follows cell stride position b = true ↔
    ∀ (i : Nat) (p : Pin), b[i]? = some p → p.cell = cell ∧
    signedIndex p.element = position + i * stride := by
  refine ⟨fun h i p hp => Codegen.Layout.getElem?_of_follows h hp, fun h => ?_⟩
  induction b generalizing position with
  | nil => rfl
  | cons q b ih =>
    obtain ⟨hcell, hposition⟩ := h 0 q rfl
    simp only [follows, Bool.and_eq_true, beq_iff_eq]
    refine ⟨⟨hcell, by simpa using hposition⟩, ih fun i p hp => ?_⟩
    obtain ⟨hcell, hposition⟩ := h (i + 1) p (by simpa using hp)
    refine ⟨hcell, ?_⟩
    rw [hposition]
    push_cast
    ring

theorem firstStride_of_even {start : Int} (hb : ∀ p ∈ b, p.element < signBound)
    (h : ∀ (i : Nat) (p : Pin), b[i]? = some p → p.cell = cell ∧ p.element = start + i * stride) :
    ∀ (i : Nat) (p : Pin), b[i]? = some p → (p.element : Int) = start + i * b.firstStride := by
  match b with
  | [] => simp
  | [q] =>
    intro i p hp
    cases i with
    | zero => simpa using (h 0 p hp).2
    | succ i => simp at hp
  | q :: q' :: b =>
    have hfirst : firstStride (q :: q' :: b) = stride := by
      rw [firstStride, signedIndex_of_lt (hb q' (by simp)), signedIndex_of_lt (hb q (by simp)),
        (h 0 q rfl).2, (h 1 q' rfl).2]
      push_cast
      ring
    intro i p hp
    rw [hfirst, (h i p hp).2]

/-- A progression is found if there is one, with the first pin at its start and as long as the
bus. -/
theorem progression?_eq_some_iff (hb : ∀ p ∈ b, p.element < signBound) {g : Progression} :
    b.progression? = some g ↔ ∃ q, b.head? = some q ∧
    g = ⟨q.cell, q.element, b.firstStride, b.length⟩ ∧
      ∀ (i : Nat) (p : Pin), b[i]? = some p → p.cell = g.cell ∧
      (p.element : Int) = g.start + i * g.stride := by
  cases b with
  | nil => simp [progression?]
  | cons q b =>
    have hfollows : follows q.cell (firstStride (q :: b)) (signedIndex q.element) (q :: b) = true ↔
        ∀ (i : Nat) (p : Pin), (q :: b)[i]? = some p →
          p.cell = q.cell ∧ (p.element : Int) = q.element + i * firstStride (q :: b) := by
      rw [follows_iff, signedIndex_of_lt (hb q List.mem_cons_self)]
      refine forall₃_congr fun i p hp => ?_
      rw [signedIndex_of_lt (hb p (List.mem_of_getElem? hp))]
    simp only [progression?, Option.ite_none_right_eq_some, Option.some.injEq, List.head?_cons,
      hfollows]
    constructor
    · rintro ⟨hpins, rfl⟩
      exact ⟨q, rfl, rfl, hpins⟩
    · rintro ⟨_, rfl, rfl, hpins⟩
      exact ⟨hpins, rfl⟩

theorem isSome_progression? (hb : ∀ p ∈ b, p.element < signBound) :
    b.progression?.isSome = true ↔ b ≠ [] ∧ b.Even := by
  rw [Option.isSome_iff_exists]
  constructor
  · rintro ⟨g, hg⟩
    obtain ⟨q, hq, -, hpins⟩ := (progression?_eq_some_iff hb).mp hg
    exact ⟨fun hnil => by simp [hnil] at hq, g.cell, g.start, g.stride, hpins⟩
  · rintro ⟨hne, cell, start, stride, heven⟩
    obtain ⟨q, b', rfl⟩ := List.exists_cons_of_ne_nil hne
    have hstart : (q.element : Int) = start := by simpa using (heven 0 q rfl).2
    refine ⟨_, (progression?_eq_some_iff hb).mpr ⟨q, rfl, rfl, fun i p hp => ⟨?_, ?_⟩⟩⟩
    · exact (heven i p hp).1.trans (heven 0 q rfl).1.symm
    · rw [firstStride_of_even hb heven i p hp, hstart]

/-- The progression that is found stands for the pins of the bus. -/
theorem places_of_progression? (hb : ∀ p ∈ b, p.element < signBound) {g : Progression}
    (hg : b.progression? = some g) : g.places = b.map fun p => (p.cell, (p.element : Int)) := by
  obtain ⟨q, -, hform, hpins⟩ := (progression?_eq_some_iff hb).mp hg
  have hlength : g.length = b.length := by rw [hform]
  refine List.ext_getElem (by simp [Progression.places, hlength]) fun i hi hi' => ?_
  obtain ⟨hcell, hposition⟩ := hpins i _ (List.getElem?_eq_getElem (by simpa using hi'))
  simp only [Progression.places, List.getElem_map, List.getElem_range, hcell, hposition]

section Words

/-- The same as following from `first` on, but with all that is computed cut to words. -/
def followsInWords (cell : Nat) (first stride : Int) : Nat → Bus → Bool
  | _, [] => true
  | i, p :: ps =>
    p.cell == cell && signedIndex p.element == wrap (first + wrap (signedIndex i * stride)) &&
      followsInWords cell first stride (i + 1) ps

def progressionInWords? (b : Bus) : Option Progression :=
  match b with
  | [] => none
  | p :: _ =>
    if followsInWords p.cell (signedIndex p.element) (wrap b.firstStride) 0 b then
      some ⟨p.cell, p.element, wrap b.firstStride, b.length⟩
    else none

@[simp] theorem wrap_position (first stride : Int) (i : Nat) :
    wrap (first + wrap (signedIndex i * stride)) = wrap (first + i * stride) := by
  simp only [wrap, signedIndex, Int.add_bmod_bmod, Int.bmod_mul_bmod]

theorem eq_wrap_iff {element : Nat} (he : element < signBound)
    (hp : 0 ≤ position ∧ position < signBound)
    (hs : -(signBound : Int) < stride ∧ stride < signBound) :
    (element : Int) = wrap (position + stride) ↔ (element : Int) = position + stride := by
  have he : (element : Int) < signBound := by exact_mod_cast he
  by_cases hlt : position + stride < signBound
  · rw [wrap_of_lt (by omega) hlt]
  · -- a word too far leaves something negative
    have hwrap : wrap (position + stride) = position + stride - wordBound := by
      rw [← wrap_of_lt (n := position + stride - wordBound)
        (by simp only [signBound, wordBound] at *; omega)
        (by simp only [signBound, wordBound] at *; omega)]
      exact (Int.sub_bmod_right _ _).symm
    rw [hwrap]
    simp only [signBound, wordBound] at *
    omega

/-- Behind a pin at an index, words do as well: as long as pins are found, no word runs over. -/
theorem followsInWords_eq {first : Int} (hb : ∀ p ∈ b, p.element < signBound)
    (hs : -(signBound : Int) < stride ∧ stride < signBound) :
    ∀ i : Nat, 0 ≤ first + i * stride ∧ first + i * stride < signBound →
      followsInWords cell first stride (i + 1) b =
        follows cell stride (first + i * stride + stride) b := by
  induction b with
  | nil => exact fun _ _ => rfl
  | cons p b ih =>
    intro i hi
    obtain ⟨hp, hb⟩ := List.forall_mem_cons.mp hb
    have hnext : first + (i + 1 : Nat) * stride = first + i * stride + stride := by
      push_cast
      ring
    have hiff := eq_wrap_iff hp hi hs
    rw [followsInWords, follows, wrap_position, signedIndex_of_lt hp, hnext]
    by_cases hat : (p.element : Int) = first + i * stride + stride
    · have hrest := ih hb (i + 1) (by
        rw [hnext, ← hat]
        exact ⟨Int.natCast_nonneg _, by exact_mod_cast hp⟩)
      rw [hrest, hnext, beq_iff_eq.mpr hat, beq_iff_eq.mpr (hiff.mpr hat)]
    · rw [beq_false_of_ne hat, beq_false_of_ne (mt hiff.mp hat)]
      simp

theorem firstStride_lt (hb : ∀ p ∈ b, p.element < signBound) :
    -(signBound : Int) < b.firstStride ∧ b.firstStride < signBound := by
  match b with
  | [] | [_] => simp [firstStride, signBound]
  | q :: q' :: b =>
    have hq := hb q (by simp)
    have hq' := hb q' (by simp)
    rw [firstStride, signedIndex_of_lt hq, signedIndex_of_lt hq']
    omega

theorem progressionInWords?_eq (hb : ∀ p ∈ b, p.element < signBound) :
    b.progressionInWords? = b.progression? := by
  cases b with
  | nil => rfl
  | cons q b =>
    have hs := firstStride_lt hb
    obtain ⟨hq, hrest⟩ := List.forall_mem_cons.mp hb
    have hbehind : followsInWords q.cell q.element (firstStride (q :: b)) (0 + 1) b =
        follows q.cell _ _ b := followsInWords_eq hrest hs 0 (by simpa using by exact_mod_cast hq)
    rw [progressionInWords?, progression?, wrap_of_lt (by omega) hs.2, signedIndex_of_lt hq,
      followsInWords, follows, wrap_position, signedIndex_of_lt hq, hbehind]
    have hstart : wrap (q.element : Int) = q.element := signedIndex_of_lt hq
    simp [hstart]

end Words

/-- A progression is found exactly where there is one, and in words as well; it stands for the pins
of its bus, and the address that moves along it goes where the address of each pin does. -/
theorem progression_exact (b : Bus) (hb : ∀ p ∈ b, p.element < signBound) :
    (b.progression?.isSome = true ↔ b ≠ [] ∧ b.Even) ∧ b.progressionInWords? = b.progression? ∧
      ∀ g, b.progression? = some g → g.places = b.map (fun p => (p.cell, (p.element : Int))) ∧
        ∀ l : Codegen.Layout, ∃ a, l.moving? b = some a ∧ ∀ (i : Nat) (p : Pin), b[i]? = some p →
          a.segment = (l.element p).segment ∧ a.index i 0 = p.element ∧
          (l.element p).index 0 0 = p.element := by
  refine ⟨isSome_progression? hb, progressionInWords?_eq hb, fun g hg =>
    ⟨places_of_progression? hb hg, fun l => ?_⟩⟩
  have hmoving : l.moving? b = some _ := congrArg (Option.map _) hg
  refine ⟨_, hmoving, fun i p hp => ?_⟩
  have hlt := hb p (List.mem_of_getElem? hp)
  obtain ⟨hsegment, hindex⟩ := Codegen.Layout.at_of_moving? hmoving hp hlt
  obtain ⟨hsegment', hindex'⟩ := Codegen.Layout.at_element (l := l) hlt 0
  exact ⟨hsegment.trans hsegment'.symm, hindex, hindex'⟩

def descending : Bus := [⟨3, 7⟩, ⟨3, 5⟩, ⟨3, 3⟩, ⟨3, 1⟩]

/-- The distance of the first two would lead out of the words. -/
def leaping : Bus := [⟨0, 0⟩, ⟨0, 0x4000000000000000⟩, ⟨0, 1⟩]

theorem progression_exact_descending :
    (∀ p ∈ descending, p.element < signBound) ∧ (∀ p ∈ leaping, p.element < signBound) ∧
      descending.progression? = some ⟨3, 7, -2, 4⟩ ∧
      (descending.Even ∧ Progression.places ⟨3, 7, -2, 4⟩ = [(3, 7), (3, 5), (3, 3), (3, 1)] ∧
        ∀ l : Codegen.Layout, ∃ a, l.moving? descending = some a ∧
          ∀ (i : Nat) (p : Pin), descending[i]? = some p →
          a.segment = (l.element p).segment ∧ a.index i 0 = p.element ∧
          (l.element p).index 0 0 = p.element) ∧
      leaping.progressionInWords? = none ∧ ¬ leaping.Even := by
  have hd : ∀ p ∈ descending, p.element < signBound := by decide
  have hl : ∀ p ∈ leaping, p.element < signBound := by decide
  have hfound : descending.progression? = some ⟨3, 7, -2, 4⟩ := by decide
  have hnone : leaping.progression? = none := by decide
  obtain ⟨hsome, -, hplaces⟩ := progression_exact descending hd
  obtain ⟨hsome', hwords, -⟩ := progression_exact leaping hl
  refine ⟨hd, hl, hfound, ⟨(hsome.mp (by rw [hfound]; rfl)).2, hplaces _ hfound⟩,
    hwords.trans hnone, fun heven => ?_⟩
  have := hsome'.mpr ⟨by decide, heven⟩
  rw [hnone] at this
  cases this

end Bus
end StreamStats
