import StreamStats.Decimal

/-! The shortest decimal that reads back to a binary number. A binary number of 64 bits stands for
the interval of reals that round to it; among the decimals of the least number of digits inside, the
nearest is chosen, of two equally near the larger. -/

namespace StreamStats
namespace Decimal

/-- The positive number `mantissa * 2 ^ exponent` with the reals that round to it: below it half the
distance to its neighbour, which is half as far when `narrowBelow`, and above it half the distance
upwards. -/
structure Binary where
  mantissa : Nat
  exponent : Int
  narrowBelow : Bool

namespace Binary

/-- The magnitude with the given bits, infinities and what is no number aside. -/
def ofBits (bits : Nat) : Binary :=
  let fraction : Nat := bits % 0x10000000000000
  let biased : Nat := bits / 0x10000000000000 % 0x800
  if biased = 0 then ⟨fraction, -1074, false⟩
  else ⟨0x10000000000000 + fraction, (biased : Int) - 1075, fraction = 0 && 1 < biased⟩

/-- Four times the mantissa is the number in quarters; `scale` is a quarter as a fraction. -/
def scale (b : Binary) : Nat × Nat :=
  let power := b.exponent - 2
  if 0 ≤ power then (Nat.pow 2 power.toNat, 1) else (1, Nat.pow 2 (-power).toNat)

/-- The ends of the interval in quarters. They belong to it exactly if the mantissa is even. -/
def lower (b : Binary) : Nat := 4 * b.mantissa - (if b.narrowBelow then 1 else 2)

def upper (b : Binary) : Nat := 4 * b.mantissa + 2

def contains (b : Binary) (d : Decimal) : Bool :=
  let (num, den) := b.scale
  let (point, unit) :=
    if 0 ≤ d.exponent then (d.digits * Nat.pow 10 d.exponent.toNat * den, num)
    else (d.digits * den, num * Nat.pow 10 (-d.exponent).toNat)
  let low := b.lower * unit
  let high := b.upper * unit
  if b.mantissa % 2 = 0 then low ≤ point && point ≤ high else low < point && point < high

def decimalPower (b : Binary) : Int :=
  let (num, den) := b.scale
  let num := 4 * b.mantissa * num
  if den ≤ num then (Nat.toDigits 10 (num / den)).length
  else 1 - (Nat.toDigits 10 (den / num)).length

/-- The decimal of this many digits in the interval that lies nearest, if there is one. -/
def nearest? (b : Binary) (count : Nat) : Option Decimal :=
  let exponent := b.decimalPower - count
  let (num, den) := b.scale
  let num := 4 * b.mantissa * num
  let (num, den) :=
    if 0 ≤ exponent then (num, den * Nat.pow 10 exponent.toNat)
    else (num * Nat.pow 10 (-exponent).toNat, den)
  let below : Decimal := ⟨num / den, exponent⟩
  let above : Decimal := ⟨num / den + 1, exponent⟩
  if b.contains below && (!b.contains above || 2 * (num % den) < den) then some below
  else if b.contains above then some above
  else none

/-- Seventeen digits always suffice. -/
def shortest (b : Binary) : Decimal :=
  if b.mantissa = 0 then ⟨0, 0⟩
  else ((List.range' 1 17).findSome? b.nearest?).getD ⟨0, 0⟩

end Binary

def trimZeros (d : Decimal) : Nat → Decimal
  | 0 => d
  | n + 1 =>
    if d.digits ≠ 0 ∧ d.digits % 10 = 0 then trimZeros ⟨d.digits / 10, d.exponent + 1⟩ n else d

def ofFloat (x : Float) : Decimal :=
  (Binary.ofBits x.toBits.toNat).shortest.trimZeros 17

def writeFloat (layout : Layout) (x : Float) : String :=
  let negative := 0x8000000000000000 ≤ x.toBits.toNat
  if x.isNaN then layout.indefinite
  else if x.isInf then (if negative then "-" else "") ++ layout.infinite
  else (ofFloat x).write layout negative

end Decimal
end StreamStats
