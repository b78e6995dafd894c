import Mathlib
import StreamStats.Proofs.Lawful

/-! Floating-point numbers obey the laws that rewriting rests on. A zero of the right sign hands the
other side through; multiplying or dividing by one makes the fraction longer, and rounding makes it
what it was. -/

namespace StreamStats
namespace Double

open Float.Model Float.Model.UnpackedFloat

/-- The exponent is the one that rounding aims at. -/
def Canonical (m : Nat) (e : Int) : Prop := Format.binary64.targetExponent (totalExponent m e) = e

theorem canonical_iff {m : Nat} {e : Int} : Canonical m e ↔ max (m.log2 + 1 + e - 53) (-1074) = e :=
  Iff.rfl

theorem canonical_of_unpack {b : BitVec Format.binary64.numBits} {s : Sign} {m : Nat} {e : Int}
    {hm : 0 < m} (h : UnpackedFloat.unpack Format.binary64 b = .finite s m e hm) :
    Canonical m e := by
  rw [canonical_iff]
  unfold UnpackedFloat.unpack at h
  extract_lets mantissa exponent unbiased sign sign' at h
  have hunbiased : unbiased = (exponent.toNat : Int) - 1075 := rfl
  have hmantissa : mantissa.toNat < 2 ^ 52 := mantissa.isLt
  split at h
  · split at h <;> cases h
  · split at h
    · rename_i hzero
      split at h
      · cases h
      · simp only [UnpackedFloat.finite.injEq] at h
        obtain ⟨-, hvalue, he⟩ := h
        have hlog : m.log2 < 52 := (Nat.log2_lt (Nat.ne_of_gt hm)).mpr (hvalue ▸ hmantissa)
        have hexponent : exponent.toNat = 0 := by rw [hzero]; rfl
        omega
    · rename_i hne
      simp only [UnpackedFloat.finite.injEq] at h
      obtain ⟨-, hvalue, he⟩ := h
      have hexponent : exponent.toNat ≠ 0 := fun h0 => hne (BitVec.eq_of_toNat_eq h0)
      have hleading : m = 2 ^ 52 + mantissa.toNat := by
        rw [← hvalue, BitVec.toNat_append, ← Nat.shiftLeft_add_eq_or_of_lt mantissa.isLt]
        rfl
      have hlog : m.log2 = 52 := (Nat.log2_eq_iff (Nat.ne_of_gt hm)).mpr (by omega)
      omega

theorem log2_mul_pow {m : Nat} (hm : 0 < m) (k : Nat) : (m * 2 ^ k).log2 = m.log2 + k := by
  rw [Nat.log2_eq_iff (by positivity), Nat.pow_add, Nat.add_right_comm, Nat.pow_add]
  exact ⟨Nat.mul_le_mul_right _ (Nat.log2_self_le (Nat.ne_of_gt hm)),
    Nat.mul_lt_mul_of_pos_right Nat.lt_log2_self (by positivity)⟩

@[simp] theorem shiftRight_mul_pow (m k : Nat) :
    (⟨m * 2 ^ k, false, false⟩ : ExtendedMantissa) >>> k = ⟨m, false, false⟩ := by
  show k.repeat ExtendedMantissa.shiftRightOne _ = _
  induction k generalizing m with
  | zero => simp [Nat.repeat]
  | succ k ih =>
    rw [Nat.pow_succ', ← Nat.mul_assoc, Nat.repeat, ih]
    simp [ExtendedMantissa.shiftRightOne]

section Canonical

variable {m : Nat} {e : Int} (h : Canonical m e)

include h in
theorem shiftToTargetExponent_of_canonical (hm : 0 < m) (k : Nat) :
    shiftToTargetExponent Format.binary64 (m * 2 ^ k) (e - k) .exact = (⟨m, false, false⟩, e) := by
  have htotal : totalExponent (m * 2 ^ k) (e - k) = totalExponent m e := by
    rw [totalExponent, totalExponent, log2_mul_pow hm]
    push_cast
    ring
  have hamount : (e - (e - k)).toNat = k := by omega
  rw [shiftToTargetExponent, htotal, h]
  simp only [shiftToExponent, hamount, ExtendedMantissa.ofMantissaAndAccuracy, shiftRight_mul_pow,
    sub_add_cancel]

include h in
/-- A fraction made longer is rounded back. -/
theorem roundWithAccuracy_of_canonical (hm : 0 < m) (s : Sign) (k : Nat) :
    roundWithAccuracy Format.binary64 s (m * 2 ^ k) (e - k) .exact = .finite s m e hm := by
  have hagain := shiftToTargetExponent_of_canonical h hm 0
  rw [pow_zero, mul_one, Nat.cast_zero, sub_zero] at hagain
  simp only [roundWithAccuracy, shiftToTargetExponent_of_canonical h hm k,
    ExtendedMantissa.roundedMantissa, ExtendedMantissa.accuracy, Accuracy.roundToNearestEven,
    hagain, Nat.ne_of_gt hm, dite_false]

include h in
theorem divCore_of_canonical :
    ∃ k : Nat, divCore Format.binary64 m e (2 ^ 52) (-52) = (m * 2 ^ k, e - k, .exact) := by
  have hone : totalExponent (2 ^ 52) (-52) = 1 := by decide
  obtain ⟨t, ht⟩ : ∃ t, Format.binary64.targetExponent (totalExponent m e - 1) = t := ⟨_, rfl⟩
  have hle : t ≤ e := by
    have ht' : max (m.log2 + 1 + e - 1 - 53) (-1074) = t := ht
    have hc := canonical_iff.mp h
    omega
  obtain ⟨k, hk⟩ := Int.eq_ofNat_of_zero_le (Int.sub_nonneg.mpr hle)
  refine ⟨k, ?_⟩
  have hmin : min (e - -52) t = e - k := by omega
  have hamount : (e - -52 - (e - k)).toNat = k + 52 := by omega
  have hshift : m <<< (k + 52) = m * 2 ^ k * 2 ^ 52 := by
    rw [Nat.shiftLeft_eq, Nat.pow_add, Nat.mul_assoc]
  simp only [divCore, hone, ht, hmin, hamount, hshift, Nat.mul_div_cancel _ (Nat.two_pow_pos 52),
    Nat.mul_mod_left, accuracyOfFraction, if_true]

end Canonical

theorem sign_positive (s : Sign) : s * .positive = s ∧ .positive * s = s ∧ s / .positive = s := by
  cases s <;> exact ⟨rfl, rfl, rfl⟩

def one : UnpackedFloat := .finite .positive (2 ^ 52) (-52) (by decide)

section Unpacked

variable {b : BitVec Format.binary64.numBits} {u : UnpackedFloat}

theorem mul_one_unpacked (hu : UnpackedFloat.unpack Format.binary64 b = u) :
    UnpackedFloat.mul Format.binary64 u one = u ∧ UnpackedFloat.mul Format.binary64 one u = u := by
  cases u with
  | notANumber => exact ⟨rfl, rfl⟩
  | infinity s => simp only [one, UnpackedFloat.mul, sign_positive, and_self]
  | zero s => simp only [one, UnpackedFloat.mul, sign_positive, and_self]
  | finite s m e hm =>
    have hround := roundWithAccuracy_of_canonical (canonical_of_unpack hu) hm s 52
    simp only [one, UnpackedFloat.mul, sign_positive]
    rw [Nat.mul_comm (2 ^ 52), Int.add_comm (-52)]
    exact ⟨hround, hround⟩

theorem div_one_unpacked (hu : UnpackedFloat.unpack Format.binary64 b = u) :
    UnpackedFloat.div Format.binary64 u one = u := by
  cases u with
  | notANumber => rfl
  | infinity s => simp only [one, UnpackedFloat.div, sign_positive]
  | zero s => simp only [one, UnpackedFloat.div, sign_positive]
  | finite s m e hm =>
    obtain ⟨k, hk⟩ := divCore_of_canonical (canonical_of_unpack hu)
    simp only [one, UnpackedFloat.div, sign_positive, hk,
      roundWithAccuracy_of_canonical (canonical_of_unpack hu) hm s k]

theorem add_negZero_unpacked (u : UnpackedFloat) :
    UnpackedFloat.add Format.binary64 u (.zero .negative) = u ∧
      UnpackedFloat.add Format.binary64 (.zero .negative) u = u := by
  cases u with
  | zero s => cases s <;> exact ⟨rfl, rfl⟩
  | _ => exact ⟨rfl, rfl⟩

@[simp] theorem sub_posZero_unpacked (u : UnpackedFloat) :
    UnpackedFloat.sub Format.binary64 u (.zero .positive) = u := by
  cases u with
  | zero s => cases s <;> rfl
  | _ => rfl

end Unpacked

theorem eq_of_unpack {x : Float} {u : UnpackedFloat} (h : u = x.toModel.unpack) :
    Float.ofModel (Float.Model.pack u) = x := by
  rw [h]
  exact Float.ofBits_toBits x

theorem eq_of_isNegZero {z : Float} (hz : Scalar.isNegZero z = true) :
    z = Float.ofBits 0x8000000000000000 := Float.toBits_inj.mp (eq_of_beq hz)

theorem eq_of_isPosZero {z : Float} (hz : Scalar.isPosZero z = true) : z = Float.ofBits 0 :=
  Float.toBits_inj.mp (eq_of_beq hz)

theorem eq_of_isOne {o : Float} (ho : Scalar.isOne o = true) : o = Float.ofNat 1 := by
  have ho : (o == Float.ofNat 1) = true := ho
  obtain ⟨-, -, h | ⟨-, h⟩ | ⟨-, h⟩⟩ := Float.beq_iff_ne_nan_and_eq.mp ho
  · exact h
  · exact absurd h (by decide)
  · exact absurd h (by decide)

end Double

open Double

instance : LawfulScalar Float where
  add_negZero x z hz := by
    rw [eq_of_isNegZero hz]
    exact eq_of_unpack (add_negZero_unpacked x.toModel.unpack).1
  negZero_add x z hz := by
    rw [eq_of_isNegZero hz]
    exact eq_of_unpack (add_negZero_unpacked x.toModel.unpack).2
  sub_posZero x z hz := by
    rw [eq_of_isPosZero hz]
    exact eq_of_unpack (sub_posZero_unpacked x.toModel.unpack)
  mul_one x o ho := by
    rw [eq_of_isOne ho]
    exact eq_of_unpack (mul_one_unpacked rfl).1
  one_mul x o ho := by
    rw [eq_of_isOne ho]
    exact eq_of_unpack (mul_one_unpacked rfl).2
  div_one x o ho := by
    rw [eq_of_isOne ho]
    exact eq_of_unpack (div_one_unpacked rfl)

namespace Double

open Float.Model Float.Model.UnpackedFloat

def Positive : UnpackedFloat → Prop
  | .infinity s | .zero s | .finite s _ _ _ => s = .positive
  | .notANumber => True

@[simp] theorem msb_packComponents (e : BitVec Format.binary64.exponentBits)
    (m : BitVec Format.binary64.mantissaBitsWithoutImplicit) :
    (packComponents Format.binary64 .positive e m).msb = false := by
  rw [packComponents, BitVec.msb_append, BitVec.msb_append]
  simp [Sign.toBitVec]

/-- The sign is the first bit. -/
theorem Positive.msb_pack {u : UnpackedFloat} (h : Positive u) :
    (UnpackedFloat.pack Format.binary64 u).msb = false := by
  cases u with
  | notANumber => exact msb_packComponents _ _
  | infinity s =>
    cases h
    exact msb_packComponents _ _
  | zero s =>
    cases h
    exact msb_packComponents _ _
  | finite s m e hm =>
    cases h
    unfold UnpackedFloat.pack
    dsimp only
    split
    · exact msb_packComponents _ _
    · split <;> exact msb_packComponents _ _

@[simp] theorem positive_roundWithAccuracy (m : Nat) (e : Int) (a : Accuracy) :
    Positive (roundWithAccuracy Format.binary64 .positive m e a) := by
  unfold roundWithAccuracy
  dsimp only
  split <;> rfl

@[simp] theorem positive_ofScientific (n e : Nat) :
    Positive (UnpackedFloat.ofScientific Format.binary64 n e) := by
  unfold UnpackedFloat.ofScientific
  split
  · rfl
  · split
    · rfl
    · split
      · rfl
      · rw [if_pos (Int.natCast_nonneg e)]
        exact positive_roundWithAccuracy _ _ _

@[simp] theorem positive_ofUInt64 (n : UInt64) :
    Positive (UnpackedFloat.ofUInt64 Format.binary64 n) := by
  unfold UnpackedFloat.ofUInt64 UnpackedFloat.ofNat UnpackedFloat.ofInt UnpackedFloat.normalize
  split
  · rename_i hlt
    exact absurd (compare_lt_iff_lt.mp hlt) (Int.not_lt.mpr (Int.natCast_nonneg _))
  · rfl
  · exact positive_roundWithAccuracy _ _ _

@[simp] theorem ofNat_ne_negZero (n : Nat) : Float.ofNat n ≠ -0 := by
  intro h
  have hmsb : (Float.ofNat n).toBits.toBitVec.msb = false := by
    show (Float.ofScientific n false 0).toBits.toBitVec.msb = false
    unfold Float.ofScientific
    split
    · -- small counts are multiplied by a power of ten, here by one
      have hone : Float.exactlyRepresentablePowersOfTen[0] = Float.ofNat 1 := by decide
      simp only [Bool.false_eq_true, if_false, hone]
      rw [LawfulScalar.mul_one (α := Float) _ _ (by decide)]
      exact (positive_ofUInt64 _).msb_pack
    · exact (positive_ofScientific n 0).msb_pack
  rw [h] at hmsb
  exact absurd hmsb (by decide)

end Double
end StreamStats
