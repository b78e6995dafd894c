import StreamStats.Code

/-! Folding of constants. Loads from a fixed place in a constant segment and arithmetic on
immediates are replaced by their values, and operations that give back an operand by that operand.
Only a negative zero is neutral for addition and only a positive one for subtraction: the sum of the
two zeros is positive. -/

namespace StreamStats

variable {α : Type}

/-- What registers set by removed instructions stand for. -/
abbrev Known (α : Type) := RegMap (Operand α)

def Known.resolve (k : Known α) : Operand α → Operand α
  | .reg r => (k.get? r).getD (.reg r)
  | .imm value => .imm value

def Known.replaces (k : Known α) : Operand α → Bool
  | .reg r => k.contains r
  | .imm _ => false

variable [Scalar α]

/-- The operand that an operation gives back, if that can be told. -/
def Arith.simplify : Arith → Operand α → Operand α → Option (Operand α)
  | op, .imm x, .imm y => some (.imm (op.apply x y))
  | .add, x, .imm z => if Scalar.isNegZero z then some x else none
  | .add, .imm z, x => if Scalar.isNegZero z then some x else none
  | .sub, x, .imm z => if Scalar.isPosZero z then some x else none
  | .mul, x, .imm o => if Scalar.isOne o then some x else none
  | .mul, .imm o, x => if Scalar.isOne o then some x else none
  | .div, x, .imm o => if Scalar.isOne o then some x else none
  | _, _, _ => none

omit [Scalar α] in
/-- The value at a fixed place in a constant segment. -/
def constantAt? (segments : Array (Segment α)) (a : Address) : Option α :=
  match segments[a.segment]? with
  | some s =>
    if a.stride = 0 ∧ s.role = .constant ∧ 0 ≤ a.offset then s.contents[a.offset.toNat]? else none
  | none => none

mutual

/-- Fold one instruction. `entered` is what became of operands when the loops around were
entered. -/
def Inst.fold (segments : Array (Segment α)) (entered : Operand α → Operand α) :
    Inst α → Known α → List (Inst α) × Known α
  | .load dst src lanes, known =>
    match constantAt? segments src with
    | some value => ([], known.set dst (.imm value))
    | none => ([.load dst src lanes], known)
  | .store dst src lanes, known => ([.store dst (known.resolve (entered src)) lanes], known)
  | .binary dst op lhs rhs, known =>
    let lhs := known.resolve (entered lhs)
    let rhs := known.resolve (entered rhs)
    match op.simplify lhs rhs with
    | some x => ([], known.set dst x)
    | none => ([.binary dst op lhs rhs], known)
  | .call callee, known => ([.call callee], known)
  | .loop trips step parallel body, known =>
    let (body, known) := Block.fold segments (fun x => known.resolve (entered x)) body known
    ([.loop trips step parallel body], known)

def Block.fold (segments : Array (Segment α)) (entered : Operand α → Operand α) :
    List (Inst α) → Known α → List (Inst α) × Known α
  | [], known => ([], known)
  | inst :: rest, known =>
    let (first, known) := Inst.fold segments entered inst known
    let (rest, known) := Block.fold segments entered rest known
    (first ++ rest, known)

end

mutual

/-- Whether folding reports a change: it replaces an operand, those of a loop as the loop is entered
included, or removes an instruction. -/
def Inst.foldReports (segments : Array (Segment α)) (entered : Operand α → Operand α) :
    Inst α → Known α → Bool
  | .load _ src _, _ => (constantAt? segments src).isSome
  | .store _ src _, known => known.replaces (entered src)
  | .binary _ op lhs rhs, known =>
    known.replaces (entered lhs) || known.replaces (entered rhs) ||
      (op.simplify (known.resolve (entered lhs)) (known.resolve (entered rhs))).isSome
  | .call _, _ => false
  | .loop _ _ _ body, known =>
    (Block.operands body).any (fun x => known.replaces (entered x)) ||
      Block.foldReports segments (fun x => known.resolve (entered x)) body known

def Block.foldReports (segments : Array (Segment α)) (entered : Operand α → Operand α) :
    List (Inst α) → Known α → Bool
  | [], _ => false
  | inst :: rest, known =>
    Inst.foldReports segments entered inst known ||
      Block.foldReports segments entered rest (Inst.fold segments entered inst known).2

end

namespace Routine

def foldReports (r : Routine α) (segments : Array (Segment α)) : Bool :=
  Block.foldReports segments id r.body RegMap.empty

def foldConstants (r : Routine α) (segments : Array (Segment α)) : Routine α :=
  { r with body := (Block.fold segments id r.body RegMap.empty).1 }

end Routine
end StreamStats
