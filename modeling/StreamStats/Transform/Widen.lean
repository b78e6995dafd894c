import StreamStats.Code

/-! Widening of loops. A parallel loop of single steps takes `width` counts at a time, each access
that moves taking that many lanes; what the width leaves over follows as a second loop with
registers of its own. Loops with calls, and loops that read a stored segment at another place than
they write, stay as they are. -/

namespace StreamStats

variable {α : Type}

namespace Block

def loads (body : Block α) : List Address :=
  body.filterMap fun
    | .load _ src _ => some src
    | _ => none

def stores (body : Block α) : List Address :=
  body.filterMap fun
    | .store dst _ _ => some dst
    | _ => none

def isScalar (body : Block α) : Bool :=
  body.all fun
    | .load _ _ lanes => lanes == 1
    | .store dst _ lanes => lanes == 1 && dst.stride != 0
    | .binary _ _ _ _ => true
    | .call _ | .loop _ _ _ _ => false

/-- A segment written is written at one place only and read there only. -/
def isSeparate (body : Block α) : Bool :=
  (stores body).all fun dst =>
    (stores body ++ loads body).all fun a => a.segment != dst.segment || a == dst

end Block

namespace Inst

def advance (count : Nat) : Inst α → Inst α
  | load dst src lanes => load dst (src.advance count) lanes
  | store dst src lanes => store (dst.advance count) src lanes
  | inst => inst

def widen (width : Nat) : Inst α → Inst α
  | load dst src lanes => load dst src (if src.stride = 0 then lanes else width)
  | store dst src _ => store dst src width
  | inst => inst

end Inst

/-- The position of each register among those the body mentions, counted from `first`. -/
def Block.renumber (body : Block α) (first : Reg) : Reg → Reg :=
  fun r => first + (mentions body).eraseDups.idxOf r

/-- The loops that take the place of a loop, with the next free register, if it can be widened. -/
def Inst.widened? (width : Nat) (next : Reg) : Inst α → Option (Block α × Reg)
  | .loop trips step parallel body =>
    if parallel && step == 1 && width ≤ trips && Block.isScalar body && Block.isSeparate body then
      let main := trips - trips % width
      let wide := .loop main width true (body.map (Inst.widen width))
      if main < trips then
        let rest := (Block.rename (Block.renumber body next) body).map (Inst.advance main)
        some ([wide, .loop (trips - main) 1 true rest],
          next + (Block.mentions body).eraseDups.length)
      else some ([wide], next)
    else none
  | _ => none

def Block.widen (width : Nat) (next : Reg) : List (Inst α) → Block α × Reg × Nat
  | [] => ([], next, 0)
  | inst :: rest =>
    match inst.widened? width next with
    | some (loops, next) =>
      let (rest, next, count) := Block.widen width next rest
      (loops ++ rest, next, count + 1)
    | none =>
      let (rest, next, count) := Block.widen width next rest
      (inst :: rest, next, count)

namespace Routine

/-- Widen the loops of a routine; also returns how many. A width below two widens nothing. -/
def widenLoops (r : Routine α) (width : Nat) : Routine α × Nat :=
  if width < 2 then (r, 0)
  else
    let r := r.sync
    let (body, nextReg, count) := Block.widen width r.nextReg r.body
    ({ r with body, nextReg }, count)

end Routine
end StreamStats
