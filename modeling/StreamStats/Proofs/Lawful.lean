import StreamStats.Machine

/-! The laws of arithmetic that rewriting rests on: which numbers leave others as they are. -/

namespace StreamStats

/-- Nothing but neutral numbers. Numbers are equal here only when nothing can tell them apart, so
the two zeros differ; only a negative one is neutral for addition and only a positive one for
subtraction. -/
class LawfulScalar (α : Type) [Scalar α] : Prop where
  add_negZero (x z : α) : Scalar.isNegZero z = true → x + z = x
  negZero_add (x z : α) : Scalar.isNegZero z = true → z + x = x
  sub_posZero (x z : α) : Scalar.isPosZero z = true → x - z = x
  mul_one (x o : α) : Scalar.isOne o = true → x * o = x
  one_mul (x o : α) : Scalar.isOne o = true → o * x = x
  div_one (x o : α) : Scalar.isOne o = true → x / o = x

namespace Arith

variable {α : Type} [Scalar α]

@[simp] theorem lanes_single_right (op : Arith) (xs : List α) (y : α) :
    op.lanes xs [y] = .ok (xs.map (op.apply · y)) := by
  match xs with
  | [] => rfl
  | [x] => rfl
  | x :: x' :: xs => simp [lanes]

@[simp] theorem lanes_single_left (op : Arith) (x : α) (ys : List α) :
    op.lanes [x] ys = .ok (ys.map (op.apply x)) := by
  match ys with
  | [] => rfl
  | [y] => rfl
  | y :: y' :: ys => simp [lanes]

end Arith
end StreamStats
