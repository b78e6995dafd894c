import StreamStats.Code

/-! Running programs. Memory outlives a run and keeps what was written before a failure; registers
last for one call. Calls nest to a fixed depth. -/

namespace StreamStats

inductive Fault where
  | unknownRoutine (name : String)
  | undefinedRegister (routine : String) (reg : Reg)
  | outOfBounds (segment : Nat) (index : Int) (size : Nat)
  | laneMismatch (lhs rhs : Nat)
  | callDepth
  | inputSize (expected actual : Nat)
  | missingSegment (role : Role)
  deriving DecidableEq

def callLimit : Nat := 64

namespace Fault

def message : Fault → String
  | unknownRoutine name => s!"Unknown function: {name}"
  | undefinedRegister routine reg => s!"Register %{reg} used before definition in {routine}"
  | outOfBounds segment index size =>
    s!"Index {index} out of bounds for buffer {segment} of length {size}"
  | laneMismatch lhs rhs => s!"Lane count mismatch: {lhs} vs {rhs}"
  | callDepth => s!"Call depth exceeded {callLimit}"
  | inputSize expected actual => s!"Input size mismatch: expected {expected}, got {actual}"
  | missingSegment role => s!"Module has no {role.word} buffer"

end Fault

/-- The contents of all segments. -/
abbrev Memory (α : Type) := Array (Array α)

namespace Memory

variable {α : Type}

def sizeOf (m : Memory α) (segment : Nat) : Nat := (m[segment]?.map Array.size).getD 0

/-- The index that an address stands for, if it lies in its segment. -/
def locate (m : Memory α) (a : Address) (count lane : Nat) : Except Fault Nat :=
  let index := a.index count lane
  if 0 ≤ index ∧ index < m.sizeOf a.segment then .ok index.toNat
  else .error (.outOfBounds a.segment index (m.sizeOf a.segment))

def read [Scalar α] (m : Memory α) (a : Address) (count lane : Nat) : Except Fault α := do
  let index ← m.locate a count lane
  return ((m[a.segment]?).bind (·[index]?)).getD 0

def write (m : Memory α) (segment index : Nat) (value : α) : Memory α :=
  m.modify segment (·.setIfInBounds index value)

end Memory

/-- Execution over a memory that survives a fault. -/
abbrev Exec (α β : Type) := EStateM Fault (Memory α) β

/-- The values in registers, one per lane. -/
abbrev Frame (α : Type) := RegMap (List α)

namespace Frame

variable {α : Type}

def read (f : Frame α) (routine : String) : Operand α → Except Fault (List α)
  | .imm value => .ok [value]
  | .reg r => match f.get? r with
    | some values => .ok values
    | none => .error (.undefinedRegister routine r)

end Frame

namespace Exec

variable {α : Type}

def lift {β : Type} : Except Fault β → Exec α β
  | .ok b => return b
  | .error e => throw e

/-- Go on from a value so many times, at counts a step apart, the first being `count`. -/
def iterate {β : Type} (f : Nat → β → Exec α β) (step : Nat) : Nat → Nat → β → Exec α β
  | 0, _, b => return b
  | n + 1, count, b => do iterate f step n (count + step) (← f count b)

def load [Scalar α] (src : Address) (count lanes : Nat) : Exec α (List α) := do
  let m ← get
  let readLane (lane : Nat) (values : Array α) : Exec α (Array α) :=
    return values.push (← lift (m.read src count lane))
  return (← iterate readLane 1 lanes 0 #[]).toList

def storeLane (dst : Address) (count lane : Nat) (value : α) : Exec α Unit := do
  let index ← lift ((← get).locate dst count lane)
  modify (·.write dst.segment index value)

/-- Write to lane after lane, counting from `lane`. -/
def storeFrom (dst : Address) (count : Nat) : Nat → List α → Exec α Unit
  | _, [] => return
  | lane, value :: values => do
    storeLane dst count lane value
    storeFrom dst count (lane + 1) values

/-- Write one value to so many lanes from `lane` on. -/
def spread (dst : Address) (count : Nat) (value : α) (lanes lane : Nat) : Exec α Unit :=
  iterate (fun lane _ => storeLane dst count lane value) 1 lanes lane ()

@[simp] theorem spread_eq_storeFrom (dst : Address) (count : Nat) (value : α) (lanes lane : Nat) :
    spread dst count value lanes lane = storeFrom dst count lane (List.replicate lanes value) := by
  unfold spread
  induction lanes generalizing lane with
  | zero => rfl
  | succ lanes ih => simp [iterate, storeFrom, List.replicate_succ, ih]

def store (dst : Address) (count lanes : Nat) (values : List α) : Exec α Unit :=
  match values with
  | [value] => spread dst count value lanes 0
  | values =>
    if values.length = lanes then storeFrom dst count 0 values
    else throw (.laneMismatch lanes values.length)

end Exec

/-- Combine lane by lane, spreading a single value over the lanes of the other side. -/
def Arith.lanes {α : Type} [Scalar α] (op : Arith) (xs ys : List α) : Except Fault (List α) :=
  if xs.length = ys.length then .ok (List.zipWith op.apply xs ys)
  else match xs, ys with
    | [x], ys => .ok (ys.map (op.apply x))
    | xs, [y] => .ok (xs.map (op.apply · y))
    | xs, ys => .error (.laneMismatch xs.length ys.length)

variable {α : Type} [Scalar α]

mutual

/-- Run one instruction at a loop count, given what a call does. A loop's step of zero counts as
one. -/
def Inst.exec (call : String → Exec α Unit) (routine : String) (count : Nat) :
    Inst α → Frame α → Exec α (Frame α)
  | .load dst src lanes, frame => do
    return frame.set dst (← Exec.load src count lanes)
  | .store dst src lanes, frame => do
    Exec.store dst count lanes (← Exec.lift (frame.read routine src))
    return frame
  | .binary dst op lhs rhs, frame => do
    let xs ← Exec.lift (frame.read routine lhs)
    let ys ← Exec.lift (frame.read routine rhs)
    return frame.set dst (← Exec.lift (op.lanes xs ys))
  | .call callee, frame => do
    call callee
    return frame
  | .loop trips step _ body, frame =>
    let step := max step 1
    Exec.iterate (fun inner frame => Block.exec call routine inner body frame) step
    (iterations trips step) 0 frame

def Block.exec (call : String → Exec α Unit) (routine : String) (count : Nat) :
    List (Inst α) → Frame α → Exec α (Frame α)
  | [], frame => return frame
  | inst :: rest, frame => do
    Block.exec call routine count rest (← Inst.exec call routine count inst frame)

end

@[simp] theorem Block.exec_append (call : String → Exec α Unit) (routine : String) (count : Nat)
    (body rest : Block α) (frame : Frame α) :
    Block.exec call routine count (body ++ rest) frame =
      Block.exec call routine count body frame >>= Block.exec call routine count rest := by
  induction body generalizing frame with
  | nil => simp [Block.exec]
  | cons inst body ih => simp [Block.exec, ih]

namespace Program

/-- Call a routine with so many nested calls left. -/
def call (p : Program α) : Nat → String → Exec α Unit
  | 0, _ => throw .callDepth
  | depth + 1, name =>
    match p.routine? name with
    | none => throw (.unknownRoutine name)
    | some r => discard (Block.exec (call p depth) name 0 r.body RegMap.empty)

def initialMemory {α : Type} (p : Program α) : Memory α := p.segments.map Segment.contents

end Program

structure Machine (α : Type) where
  program : Program α
  memory : Memory α
  /-- How many runs succeeded. -/
  runs : Nat

namespace Machine

def ofProgram {α : Type} (p : Program α) : Machine α := ⟨p, p.initialMemory, 0⟩

def reset {α : Type} (m : Machine α) : Machine α := ofProgram m.program

def segment? {α : Type} (m : Machine α) (id : Nat) : Option (List α) :=
  m.memory[id]?.map Array.toList

def call (m : Machine α) (name : String) : Except Fault Unit × Machine α :=
  match m.program.call callLimit name m.memory with
  | .ok _ memory => (.ok (), { m with memory })
  | .error e memory => (.error e, { m with memory })

/-- The segments that a run goes through, if it is given an input of the right size. -/
def admits {α : Type} (m : Machine α) (input : List α) : Except Fault (Nat × Nat) :=
  match m.program.segmentOf? .input, m.program.segmentOf? .output with
  | none, _ => .error (.missingSegment .input)
  | some _, none => .error (.missingSegment .output)
  | some source, some target =>
    if input.length = m.memory.sizeOf source then .ok (source, target)
    else .error (.inputSize (m.memory.sizeOf source) input.length)

/-- Hand in an input, call a routine and return the output. -/
def run (m : Machine α) (entry : String) (input : List α) : Except Fault (List α) × Machine α :=
  match m.admits input with
  | .error e => (.error e, m)
  | .ok (source, target) =>
    match { m with memory := m.memory.setIfInBounds source input.toArray }.call entry with
    | (.error e, m) => (.error e, m)
    | (.ok _, m) => (.ok ((m.segment? target).getD []), { m with runs := m.runs + 1 })

end Machine
end StreamStats
