import StreamStats.Code

/-! Well-formed code. Every register is set once, before it is read, and one set in a loop is not
seen behind it; loops do not nest; lanes agree; every access begins and ends inside a segment, and
stores go to segments that may be written; every callee exists. -/

namespace StreamStats

inductive Defect where
  | duplicateName
  | undefined (reg : Reg)
  | redefined (reg : Reg)
  | storeLanes (lanes width : Nat)
  | operandLanes (lhs rhs : Nat)
  | unknownCallee (name : String)
  | nestedLoop
  | zeroStep
  | unknownSegment (segment : Nat)
  | readOnly (segment : String)
  | zeroLanes
  | lanesInStep (lanes step : Nat) (segment : String)
  | outOfBounds (index : Int) (segment : String) (size : Nat)
  deriving DecidableEq

namespace Defect

def message : Defect → String
  | duplicateName => "duplicate function name"
  | undefined reg => s!"%{reg} used before definition"
  | redefined reg => s!"%{reg} defined twice"
  | storeLanes lanes width => s!"store of {lanes} lanes from a {width}-lane value"
  | operandLanes lhs rhs => s!"operand lanes {lhs} and {rhs} differ"
  | unknownCallee name => s!"call to unknown function {name}"
  | nestedLoop => "nested loop"
  | zeroStep => "loop step of zero"
  | unknownSegment segment => s!"unknown buffer @{segment}"
  | readOnly segment => s!"store to read-only buffer {segment}"
  | zeroLanes => "access of zero lanes"
  | lanesInStep lanes step segment => s!"{lanes} lanes in a loop of step {step} on buffer {segment}"
  | outOfBounds index segment size =>
    s!"index {index} out of bounds for buffer {segment} of length {size}"

end Defect

structure Rejection where
  routine : String
  defect : Defect
  deriving DecidableEq

namespace Rejection

def message (r : Rejection) : String :=
  "Verification failed in " ++ r.routine ++ ": " ++ r.defect.message

end Rejection

namespace Check

/-- The loop around an instruction: how often it runs and its step. -/
structure Shape where
  iterations : Nat
  step : Nat

/-- What is known of the registers: those that can be read here, and of every one set so far its
lanes. -/
structure Seen where
  visible : RegMap Nat
  lanes : RegMap Nat

namespace Seen

def none : Seen := ⟨.empty, .empty⟩

def width {α : Type} (s : Seen) : Operand α → Nat
  | .reg r => (s.lanes.get? r).getD 1
  | .imm _ => 1

def readable {α : Type} (s : Seen) : Operand α → Except Defect Unit
  | .reg r => if s.visible.contains r then .ok () else .error (.undefined r)
  | .imm _ => .ok ()

def define (s : Seen) (r : Reg) (lanes : Nat) : Except Defect Seen :=
  if s.lanes.contains r then .error (.redefined r)
  else .ok ⟨s.visible.set r lanes, s.lanes.set r lanes⟩

end Seen

variable {α : Type}

def inside (s : Segment α) (index : Int) : Except Defect Unit :=
  if 0 ≤ index ∧ index < s.size then .ok () else .error (.outOfBounds index s.name s.size)

/-- The first and the last index of the access lie inside, and with them those between, unless words
run over on the way. A moving access in a loop covers one step exactly. -/
def access (segments : Array (Segment α)) (shape : Option Shape) (a : Address) (lanes : Nat)
    (writes : Bool) : Except Defect Unit := do
  let some s := segments[a.segment]? | throw (.unknownSegment a.segment)
  if writes && !s.role.isWritable then
    throw (.readOnly s.name)
  if lanes = 0 then
    throw .zeroLanes
  match shape with
  | none =>
    inside s (a.index 0 0)
    inside s (a.index 0 (lanes - 1))
  | some shape =>
    if a.stride ≠ 0 ∧ lanes ≠ shape.step then
      throw (.lanesInStep lanes shape.step s.name)
    if shape.iterations ≠ 0 then
      inside s (a.index 0 0)
      inside s (a.index ((shape.iterations - 1) * shape.step) (lanes - 1))

end Check

variable {α : Type}

open Check

mutual

def Inst.check (context : Context α) (shape : Option Shape) : Inst α → Seen → Except Defect Seen
  | .load dst src lanes, seen => do
    access context.segments shape src lanes false
    seen.define dst lanes
  | .store dst src lanes, seen => do
    seen.readable src
    access context.segments shape dst lanes true
    let width := seen.width src
    if width ≠ 1 ∧ width ≠ lanes then
      throw (.storeLanes lanes width)
    return seen
  | .binary dst _ lhs rhs, seen => do
    seen.readable lhs
    seen.readable rhs
    let (l, r) := (seen.width lhs, seen.width rhs)
    if l ≠ r ∧ l ≠ 1 ∧ r ≠ 1 then
      throw (.operandLanes l r)
    seen.define dst (max l r)
  | .call callee, seen =>
    if context.routines.contains callee then .ok seen else .error (.unknownCallee callee)
  | .loop trips step _ body, seen => do
    if shape.isSome then
      throw .nestedLoop
    if step = 0 then
      throw .zeroStep
    let inner ← Block.check context (some ⟨iterations trips step, step⟩) body seen
    return { inner with visible := seen.visible }

def Block.check (context : Context α) (shape : Option Shape) :
    List (Inst α) → Seen → Except Defect Seen
  | [], seen => .ok seen
  | inst :: rest, seen => do
    Block.check context shape rest (← Inst.check context shape inst seen)

end

namespace Routine

def check (r : Routine α) (context : Context α) : Except Rejection Unit :=
  match Block.check context none r.body Seen.none with
  | .ok _ => .ok ()
  | .error defect => .error ⟨r.name, defect⟩

end Routine

def firstRepeated? (seen : List String) : List String → Option String
  | [] => none
  | name :: names => if seen.contains name then some name else firstRepeated? (name :: seen) names

namespace Program

def check (p : Program α) : Except Rejection Unit :=
  match firstRepeated? [] p.routineNames with
  | some name => .error ⟨name, .duplicateName⟩
  | none => p.routines.forM fun r => r.check p.context

end Program
end StreamStats
