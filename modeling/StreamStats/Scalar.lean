/-! The arithmetic that samples are made of. Everything that computes is stated over this class, so
the same definitions run on floating-point numbers and can be reasoned about over exact ones. No law
is part of the class: a statement that needs one says so. -/

namespace StreamStats

class Scalar (α : Type) extends Add α, Sub α, Mul α, Div α, Zero α where
  ofNat : Nat → α
  /-- Equality as the arithmetic sees it: an indefinite value differs from itself, the two zeros
  agree. -/
  same : α → α → Bool
  isNegZero : α → Bool
  isPosZero : α → Bool

namespace Scalar

variable {α : Type} [Scalar α]

def isOne (x : α) : Bool := same x (ofNat 1)

end Scalar

instance : Scalar Float where
  ofNat := Float.ofNat
  same := (· == ·)
  isNegZero x := x.toBits == 0x8000000000000000
  isPosZero x := x.toBits == 0

inductive Arith where
  | add
  | sub
  | mul
  | div
  deriving DecidableEq

namespace Arith

def apply {α : Type} [Scalar α] : Arith → α → α → α
  | add, x, y => x + y
  | sub, x, y => x - y
  | mul, x, y => x * y
  | div, x, y => x / y

def word : Arith → String
  | add => "add"
  | sub => "sub"
  | mul => "mul"
  | div => "div"

end Arith

end StreamStats
