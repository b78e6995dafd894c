import StreamStats.Word

/-! Numbers read fast: as many digits as a word holds, scaled by a power of ten. The result can miss
the nearest binary number by some units in its last place. -/

namespace StreamStats
namespace Decimal

/-- Append digits to a number as long as a word holds it, and count those appended. -/
def fill (n : Nat) : List Char → Nat × Nat
  | [] => (n, 0)
  | c :: cs =>
    let next := n * 10 + (c.toNat - '0'.toNat)
    if next < wordBound then
      let (n, appended) := fill next cs
      (n, appended + 1)
    else (n, 0)

def topPower : Nat := 308

def tenTo (n : Nat) : Float := Float.ofScientific 1 false n

/-- Divide by a power of ten, by the highest one over and over while the power is beyond it. -/
def shrink (x : Float) (n : Nat) : Float :=
  if topPower < n then
    if x == 0 then x else shrink (x / tenTo topPower) (n - topPower)
  else x / tenTo n
termination_by n
decreasing_by simp only [topPower] at *; omega

/-- `x * 10 ^ power`, if it is finite. -/
def scale? (x : Float) (power : Int) : Option Float :=
  if power < 0 then some (shrink x (-power).toNat)
  else if topPower < power then if x == 0 then some x else none
  else
    let y := x * tenTo power.toNat
    if y.isInf then none else some y

/-- The number with these digits before and behind the point, times a power of ten. -/
def scaled? (whole fraction : List Char) (power : Int) : Option Float :=
  let (n, taken) := fill 0 whole
  let (n, behind) := fill n fraction
  scale? n.toUInt64.toFloat (power + whole.length - taken - behind)

end Decimal
end StreamStats
