import StreamStats.Text.Digits

/-! Reading binary numbers from decimal text. -/

namespace StreamStats
namespace Decimal

/-- The power of ten after the digits; none is power zero. -/
def power? : List Char → Option Int
  | [] => some 0
  | c :: cs =>
    if c = 'e' ∨ c = 'E' then
      match cs with
      | '-' :: cs => (Text.digits? cs).map fun n => -(n : Int)
      | '+' :: cs => (Text.digits? cs).map Int.ofNat
      | cs => (Text.digits? cs).map Int.ofNat
    else none

/-- Digits with an optional point and power. A power out of all proportion is cut where the result
has long been zero or infinite. -/
def magnitude? (cs : List Char) : Option Float := do
  let whole := cs.takeWhile Char.isDigit
  let rest := cs.dropWhile Char.isDigit
  let (fraction, rest) := match rest with
    | '.' :: rest => (rest.takeWhile Char.isDigit, rest.dropWhile Char.isDigit)
    | rest => ([], rest)
  let digits ← Text.digits? (whole ++ fraction)
  let bound : Int := 1000 + (whole ++ fraction).length
  let power := max (-bound) (min bound (← power? rest)) - fraction.length
  return if power < 0 then Float.ofScientific digits true (-power).toNat
    else Float.ofScientific digits false power.toNat

def word? (cs : List Char) : Option Float :=
  let word := String.ofList (cs.map Char.toLower)
  if word = "inf" ∨ word = "infinity" then some (1 / 0)
  else if word = "nan" then some (0 / 0)
  else none

def readFloat? (s : String) : Option Float :=
  match s.toList with
  | '-' :: cs => (magnitude? cs <|> word? cs).map (-·)
  | '+' :: cs => magnitude? cs <|> word? cs
  | cs => magnitude? cs <|> word? cs

end Decimal
end StreamStats
