import Mathlib.Data.Set.Basic
import Mathlib.Tactic.Linarith
import Mathlib.Tactic.Ring
import StreamStats.Code

/-! Places that an address stands for. As long as a segment is no larger than a signed word can
tell, nothing is cut off an index inside it, and an access lies inside as soon as its first and its
last place do. -/

namespace StreamStats
namespace Address

/-- The numbers in the address are signed words, which is all that code can hold. -/
def InWords (a : Address) : Prop := wrap a.offset = a.offset ∧ wrap a.stride = a.stride

instance (a : Address) : Decidable a.InWords := inferInstanceAs (Decidable (_ ∧ _))

/-- The place at a count, before it is cut to a word. -/
def position (a : Address) (n : Nat) : Int := a.offset + n * a.stride

theorem index_eq_wrap (a : Address) (count lane : Nat) :
    a.index count lane = wrap (a.position (count + lane)) := rfl

@[simp] theorem position_advance (a : Address) (count n : Nat)
    (h : a.index count 0 = a.position count) :
    (a.advance count).position n = a.position (count + n) := by
  simp only [position, advance, h, Nat.cast_add]
  ring

/-- All places at counts below `span` lie in a segment of this size and are no larger than words. -/
def Within (a : Address) (size span : Nat) : Prop :=
  ∀ n < span, 0 ≤ a.position n ∧ a.position n < size ∧ a.position n < signBound

theorem Within.index_eq {a : Address} {size span count lane : Nat} (h : a.Within size span)
    (hn : count + lane < span) : a.index count lane = a.position (count + lane) := by
  obtain ⟨h0, -, h1⟩ := h _ hn
  have hs : (0 : Int) ≤ signBound := by simp [signBound]
  rw [index_eq_wrap]
  exact wrap_of_lt (by omega) h1

theorem Within.mono {a : Address} {size span span' : Nat} (h : a.Within size span)
    (hs : span' ≤ span) : a.Within size span' :=
  fun n hn => h n (by omega)

theorem within_of_le_signBound {a : Address} {size span : Nat} (hs : size ≤ signBound)
    (h : ∀ n < span, 0 ≤ a.position n ∧ a.position n < size) : a.Within size span := by
  intro n hn
  have hs : (size : Int) ≤ signBound := by exact_mod_cast hs
  have := h n hn
  omega

/-- What moves evenly is between its ends. -/
theorem position_between (a : Address) {n last : Nat} (hn : n ≤ last) :
    min (a.position 0) (a.position last) ≤ a.position n ∧
      a.position n ≤ max (a.position 0) (a.position last) := by
  have hc : (n : Int) ≤ last := by exact_mod_cast hn
  have h0 : (0 : Int) ≤ n := Int.natCast_nonneg n
  simp only [position, Nat.cast_zero, zero_mul, add_zero]
  rcases le_total 0 a.stride with hs | hs
  · have h1 : 0 ≤ (n : Int) * a.stride := mul_nonneg h0 hs
    have h2 : (n : Int) * a.stride ≤ last * a.stride := mul_le_mul_of_nonneg_right hc hs
    omega
  · have h1 : (n : Int) * a.stride ≤ 0 := mul_nonpos_of_nonneg_of_nonpos h0 hs
    have h2 : (last : Int) * a.stride ≤ n * a.stride := mul_le_mul_of_nonpos_right hc hs
    omega

theorem between_of_ends {a : Address} {last : Nat} {size : Int}
    (h0 : 0 ≤ a.position 0 ∧ a.position 0 < size)
    (h1 : 0 ≤ a.position last ∧ a.position last < size) {n : Nat} (hn : n ≤ last) :
    0 ≤ a.position n ∧ a.position n < size := by
  have := a.position_between hn
  omega

theorem position_injective {a : Address} (h : a.stride ≠ 0) {n n' : Nat}
    (he : a.position n = a.position n') : n = n' := by
  have : (n : Int) * a.stride = n' * a.stride := by
    unfold position at he
    omega
  exact_mod_cast Int.eq_of_mul_eq_mul_right h this

@[simp] theorem position_of_stride_zero {a : Address} (h : a.stride = 0) (n : Nat) :
    a.position n = a.offset := by
  simp [position, h]

end Address
end StreamStats
