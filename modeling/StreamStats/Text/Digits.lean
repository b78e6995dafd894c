import StreamStats.Word

/-! Numbers written in decimal digits. -/

namespace StreamStats

theorem toString_injective {a b : Nat} (h : toString a = toString b) : a = b := by
  have h : (Nat.repr a).toList = (Nat.repr b).toList := congrArg String.toList h
  simp only [Nat.repr, String.toList_ofList] at h
  rw [← Nat.ofDigitChars_toDigits (b := 10) (n := a) (by decide) (by decide), h,
    Nat.ofDigitChars_toDigits (by decide) (by decide)]

namespace Text

def digits? (cs : List Char) : Option Nat :=
  if cs ≠ [] ∧ cs.all Char.isDigit then
    some (cs.foldl (fun n c => n * 10 + (c.toNat - '0'.toNat)) 0)
  else none

/-- A number of 64 bits without a sign of its own; a plus sign may stand before it. -/
def unsigned? (cs : List Char) : Option Nat :=
  (match cs with
    | '+' :: cs => digits? cs
    | cs => digits? cs).filter (· < wordBound)

def signed? (cs : List Char) : Option Int :=
  match cs with
  | '-' :: cs => ((digits? cs).filter (· ≤ signBound)).map fun n => -(n : Int)
  | cs => ((unsigned? cs).filter (· < signBound)).map Int.ofNat

end Text
end StreamStats
