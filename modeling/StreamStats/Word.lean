/-! Words of 64 bits and the numbers that they hold. -/

namespace StreamStats

def wordBound : Nat := 0x10000000000000000

def signBound : Nat := 0x8000000000000000

/-- The signed word that is left of a number. -/
def wrap (n : Int) : Int := Int.bmod n wordBound

@[simp] theorem wrap_of_lt {n : Int} (hl : -(signBound : Int) ≤ n) (hu : n < signBound) :
    wrap n = n := by
  unfold signBound at hl hu
  apply Int.bmod_eq_of_le <;> simp only [wordBound] <;> omega

@[simp] theorem wrap_wrap_add (m n : Int) : wrap (wrap m + n) = wrap (m + n) := Int.bmod_add_bmod

/-- An unsigned index as the signed word that addresses are computed in. -/
def signedIndex (n : Nat) : Int := wrap n

@[simp] theorem signedIndex_of_lt {n : Nat} (h : n < signBound) : signedIndex n = n :=
  wrap_of_lt (by unfold signBound; omega) (by exact_mod_cast h)

end StreamStats
