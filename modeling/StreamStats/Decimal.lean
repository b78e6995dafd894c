/-! Decimal numbers and their layouts in text. -/

namespace StreamStats

/-- The number `digits * 10 ^ exponent`. -/
structure Decimal where
  digits : Nat
  exponent : Int
  deriving DecidableEq

namespace Decimal

/-- How numbers are written: for which powers of ten of the leading digit the point stays in its
place, whether a whole number ends in `.0` there, and the words for what is no number or not
finite. -/
structure Layout where
  isPositional : Int → Bool
  keepsPoint : Bool
  indefinite : String
  infinite : String

def zeros (n : Nat) : List Char := List.replicate n '0'

/-- All digits, the point where it belongs. -/
def positional (keepsPoint : Bool) (d : Decimal) : List Char :=
  let ds := Nat.toDigits 10 d.digits
  let whole := ds.length + d.exponent
  if 0 ≤ d.exponent then
    ds ++ zeros d.exponent.toNat ++ (if keepsPoint then ['.', '0'] else [])
  else if 0 < whole then ds.take whole.toNat ++ '.' :: ds.drop whole.toNat
  else '0' :: '.' :: zeros (-whole).toNat ++ ds

/-- One digit, the others behind a point, and the power of ten of the first. -/
def scientific (power : Int) (d : Decimal) : List Char :=
  let fraction := match Nat.toDigits 10 d.digits with
    | [digit] => [digit]
    | digit :: ds => digit :: '.' :: ds
    | [] => []
  fraction ++ 'e' :: (toString power).toList

def write (layout : Layout) (negative : Bool) (d : Decimal) : String :=
  let power := (Nat.toDigits 10 d.digits).length + d.exponent - 1
  let body :=
    if d.digits = 0 ∨ layout.isPositional power then d.positional layout.keepsPoint
    else d.scientific power
  String.ofList (if negative then '-' :: body else body)

end Decimal
end StreamStats
