import StreamStats.Bus
import StreamStats.RegMap
import StreamStats.Scalar

/-! Loop code. A program is a list of memory segments and of routines over them; an instruction
moves one or more neighbouring values between memory and registers, combines registers, calls a
routine or repeats a block. Registers belong to one run of one routine. -/

namespace StreamStats

inductive Operand (α : Type) where
  | reg (r : Reg)
  | imm (value : α)

namespace Operand

variable {α : Type}

def reg? : Operand α → Option Reg
  | reg r => some r
  | imm _ => none

def rename (f : Reg → Reg) : Operand α → Operand α
  | reg r => reg (f r)
  | imm value => imm value

@[simp] theorem rename_id (x : Operand α) : x.rename id = x := by cases x <;> rfl

end Operand

/-- A place in memory that moves with the counter of the loop around it: `offset + n * stride` at
count `n`, in signed words. Lanes beside the first lie where later counts would. -/
structure Address where
  segment : Nat
  offset : Int
  stride : Int
  deriving DecidableEq

namespace Address

def fixed (segment index : Nat) : Address := ⟨segment, signedIndex index, 0⟩

def index (a : Address) (count lane : Nat) : Int :=
  wrap (a.offset + (count + lane : Nat) * a.stride)

/-- The same address as it is `count` iterations later. -/
def advance (a : Address) (count : Nat) : Address := { a with offset := a.index count 0 }

@[simp] theorem index_advance (a : Address) (count count' lane : Nat) :
    (a.advance count).index count' lane = a.index (count + count') lane := by
  simp only [advance, index, wrap_wrap_add]
  congr 1
  simp only [Nat.add_zero, Int.natCast_add, Int.add_mul]
  omega

/-- The indices that `lanes` lanes touch while the counter runs below `trips`. -/
def footprint (a : Address) (trips lanes : Nat) : List Int :=
  if a.stride = 0 then [a.offset]
  else (List.range (trips + (lanes - 1))).map fun i => a.index i 0

end Address

def iterations (trips step : Nat) : Nat := if step = 0 then 0 else (trips + step - 1) / step

inductive Inst (α : Type) where
  | load (dst : Reg) (src : Address) (lanes : Nat)
  /-- A single value goes to every lane. -/
  | store (dst : Address) (src : Operand α) (lanes : Nat)
  /-- Lane by lane; a single value is combined with every lane of the other operand. -/
  | binary (dst : Reg) (op : Arith) (lhs rhs : Operand α)
  | call (callee : String)
  /-- The counter runs from zero below `trips` in steps. In a `parallel` loop no iteration reads
  what another writes. -/
  | loop (trips step : Nat) (parallel : Bool) (body : List (Inst α))

abbrev Block (α : Type) := List (Inst α)

variable {α : Type}

mutual

/-- The operands in the order of reading, those of a loop's body included. -/
def Inst.operands : Inst α → List (Operand α)
  | .load _ _ _ | .call _ => []
  | .store _ src _ => [src]
  | .binary _ _ lhs rhs => [lhs, rhs]
  | .loop _ _ _ body => Block.operands body

def Block.operands : List (Inst α) → List (Operand α)
  | [] => []
  | inst :: rest => Inst.operands inst ++ Block.operands rest

end

mutual

/-- The registers mentioned, in order; an instruction mentions the one it sets before those it
reads. -/
def Inst.mentions : Inst α → List Reg
  | .load dst _ _ => [dst]
  | .store _ src _ => src.reg?.toList
  | .binary dst _ lhs rhs => dst :: (lhs.reg?.toList ++ rhs.reg?.toList)
  | .call _ => []
  | .loop _ _ _ body => Block.mentions body

def Block.mentions : List (Inst α) → List Reg
  | [] => []
  | inst :: rest => Inst.mentions inst ++ Block.mentions rest

end

mutual

def Inst.mapOperands (f : Operand α → Operand α) : Inst α → Inst α
  | .load dst src lanes => .load dst src lanes
  | .store dst src lanes => .store dst (f src) lanes
  | .binary dst op lhs rhs => .binary dst op (f lhs) (f rhs)
  | .call callee => .call callee
  | .loop trips step parallel body => .loop trips step parallel (Block.mapOperands f body)

def Block.mapOperands (f : Operand α → Operand α) : List (Inst α) → List (Inst α)
  | [] => []
  | inst :: rest => Inst.mapOperands f inst :: Block.mapOperands f rest

end

mutual

/-- Rename the registers set and those read alike. -/
def Inst.rename (f : Reg → Reg) : Inst α → Inst α
  | .load dst src lanes => .load (f dst) src lanes
  | .store dst src lanes => .store dst (src.rename f) lanes
  | .binary dst op lhs rhs => .binary (f dst) op (lhs.rename f) (rhs.rename f)
  | .call callee => .call callee
  | .loop trips step parallel body => .loop trips step parallel (Block.rename f body)

def Block.rename (f : Reg → Reg) : List (Inst α) → List (Inst α)
  | [] => []
  | inst :: rest => Inst.rename f inst :: Block.rename f rest

end

mutual

@[simp] theorem Inst.rename_id : ∀ inst : Inst α, inst.rename id = inst
  | .load _ _ _ => rfl
  | .store _ x _ => by simp [Inst.rename]
  | .binary _ _ x y => by simp [Inst.rename]
  | .call _ => rfl
  | .loop _ _ _ body => by simp [Inst.rename, Block.rename_id body]

@[simp] theorem Block.rename_id : ∀ body : List (Inst α), Block.rename id body = body
  | [] => rfl
  | inst :: rest => by rw [Block.rename, Inst.rename_id inst, Block.rename_id rest]

end

mutual

/-- The number of instructions, a loop's body counted once. -/
def Inst.size : Inst α → Nat
  | .loop _ _ _ body => 1 + Block.size body
  | _ => 1

def Block.size : List (Inst α) → Nat
  | [] => 0
  | inst :: rest => Inst.size inst + Block.size rest

end

mutual

def Inst.callees : Inst α → List String
  | .call callee => [callee]
  | .loop _ _ _ body => Block.callees body
  | _ => []

def Block.callees : List (Inst α) → List String
  | [] => []
  | inst :: rest => Inst.callees inst ++ Block.callees rest

end

namespace Inst

/-- The register that the instruction sets itself. -/
def target? : Inst α → Option Reg
  | load dst _ _ | binary dst _ _ _ => some dst
  | _ => none

def uses (inst : Inst α) : List Reg := inst.operands.filterMap Operand.reg?

def hasEffect : Inst α → Bool
  | store _ _ _ | call _ | loop _ _ _ _ => true
  | load _ _ _ | binary _ _ _ _ => false

/-- How often the body of a loop runs; a loop with a step of zero is not meant to run. -/
def iterations? : Inst α → Option Nat
  | loop trips step _ _ => some (iterations trips step)
  | _ => none

end Inst

namespace Block

@[simp] theorem operands_append (body rest : Block α) :
    operands (body ++ rest) = operands body ++ operands rest := by
  induction body with
  | nil => rfl
  | cons inst body ih => simp [operands, ih]

@[simp] theorem mentions_append (body rest : Block α) :
    mentions (body ++ rest) = mentions body ++ mentions rest := by
  induction body with
  | nil => rfl
  | cons inst body ih => simp [mentions, ih]

theorem mem_mentions_append {body rest : Block α} {r : Reg} :
    r ∈ mentions (body ++ rest) ↔ r ∈ mentions body ∨ r ∈ mentions rest := by
  rw [mentions_append, List.mem_append]

@[simp] theorem size_append (body rest : Block α) :
    size (body ++ rest) = size body + size rest := by
  induction body with
  | nil => simp [size]
  | cons inst body ih => simp [size, ih, Nat.add_assoc]

def uses (body : Block α) : List Reg := (operands body).filterMap Operand.reg?

@[simp] theorem uses_append (body rest : Block α) :
    uses (body ++ rest) = uses body ++ uses rest := by
  simp [uses]

theorem mem_uses_append {body rest : Block α} {r : Reg} :
    r ∈ uses (body ++ rest) ↔ r ∈ uses body ∨ r ∈ uses rest := by
  rw [uses_append, List.mem_append]

def regBound (body : Block α) : Nat := (mentions body).foldr (fun r n => max (r + 1) n) 0

theorem lt_regBound {body : Block α} {r : Reg} (h : r ∈ mentions body) : r < regBound body := by
  unfold regBound
  generalize mentions body = rs at h
  induction rs with
  | nil => cases h
  | cons r' rs ih =>
    rcases List.mem_cons.mp h with rfl | h
    · exact Nat.lt_of_lt_of_le (Nat.lt_succ_self r) (Nat.le_max_left _ _)
    · exact Nat.lt_of_lt_of_le (ih h) (Nat.le_max_right _ _)

end Block

/-- Whether a routine can be called from outside the program. -/
inductive Linkage where
  | external
  | internal
  deriving DecidableEq

inductive InlineHint where
  | default
  | always
  | never
  deriving DecidableEq

structure Routine (α : Type) where
  name : String
  linkage : Linkage
  hint : InlineHint
  /-- The register that a new value would get. -/
  nextReg : Reg
  body : Block α

namespace Routine

/-- Move the register counter past every register in the body. -/
def sync (r : Routine α) : Routine α := { r with nextReg := max r.nextReg (Block.regBound r.body) }

def ofBody (name : String) (linkage : Linkage) (body : Block α) : Routine α :=
  sync ⟨name, linkage, .default, 0, body⟩

def push (r : Routine α) (inst : Inst α) : Routine α := { r with body := r.body ++ [inst] }

def size (r : Routine α) : Nat := Block.size r.body

def callees (r : Routine α) : List String := Block.callees r.body

end Routine

/-- What a segment is for: handed in before a run, handed out after it, kept between runs, never
written, or made anew in every run. -/
inductive Role where
  | input
  | output
  | state
  | constant
  | scratch
  deriving DecidableEq

namespace Role

def isWritable : Role → Bool
  | input | constant => false
  | output | state | scratch => true

def word : Role → String
  | input => "input"
  | output => "output"
  | state => "state"
  | constant => "constant"
  | scratch => "scratch"

end Role

structure Segment (α : Type) where
  name : String
  role : Role
  /-- The contents before the first run. -/
  contents : Array α

namespace Segment

def zeros [Scalar α] (name : String) (role : Role) (size : Nat) : Segment α :=
  ⟨name, role, Array.replicate size 0⟩

def size (s : Segment α) : Nat := s.contents.size

end Segment

structure Program (α : Type) where
  name : String
  segments : Array (Segment α)
  routines : List (Routine α)

namespace Program

def segmentOf? (p : Program α) (role : Role) : Option Nat :=
  p.segments.findIdx? fun s => s.role = role

def routine? (p : Program α) (name : String) : Option (Routine α) :=
  p.routines.find? fun r => r.name == name

theorem mem_of_routine? {p : Program α} {name : String} {r : Routine α}
    (h : p.routine? name = some r) :
    r ∈ p.routines := List.mem_of_find?_eq_some h

theorem name_of_routine? {p : Program α} {name : String} {r : Routine α}
    (h : p.routine? name = some r) :
    r.name = name := by
  simpa using List.find?_some h

def routineIndex? (p : Program α) (name : String) : Option Nat :=
  p.routines.findIdx? fun r => r.name == name

def routineNames (p : Program α) : List String := p.routines.map Routine.name

def addSegment (p : Program α) (s : Segment α) : Program α :=
  { p with segments := p.segments.push s }

def addRoutine (p : Program α) (r : Routine α) : Program α :=
  { p with routines := p.routines ++ [r] }

def setRoutine (p : Program α) (index : Nat) (r : Routine α) : Program α :=
  { p with routines := p.routines.set index r }

def size (p : Program α) : Nat := p.routines.foldr (fun r n => r.size + n) 0

end Program

/-- What a routine can see of its program. -/
structure Context (α : Type) where
  segments : Array (Segment α)
  routines : List String

def Program.context (p : Program α) : Context α := ⟨p.segments, p.routineNames⟩

end StreamStats
