import StreamStats.Code

/-! Inlining. A call outside of loops is replaced by the body of the routine called, its registers
moved past those of the caller. Routines ask to be inlined always or never, or are taken if they are
small. What was put in is not looked at again, so recursion ends. -/

namespace StreamStats

variable {α : Type}

namespace Routine

/-- The routine may be put in the place of a call. Without a limit only one that asks for it may. -/
def isInlinable (limit : Option Nat) (r : Routine α) : Bool :=
  match r.hint with
  | .always => true
  | .never => false
  | .default => limit.any (r.size ≤ ·)

end Routine

namespace Program

/-- The last routine of a name. -/
def lastRoutine? (p : Program α) (name : String) : Option (Routine α) :=
  p.routines.reverse.find? fun r => r.name == name

end Program

/-- The routine to put in the place of an instruction. A routine is not put into itself. -/
def Inst.inlined? (p : Program α) (limit : Option Nat) (caller : String) :
    Inst α → Option (Routine α)
  | .call callee =>
    if callee = caller then none else (p.lastRoutine? callee).filter (Routine.isInlinable limit)
  | _ => none

/-- Inline the calls of a block; also returns the next free register. -/
def Block.inline (callee? : Inst α → Option (Routine α)) (next : Reg) :
    List (Inst α) → Block α × Reg
  | [] => ([], next)
  | inst :: rest =>
    match callee? inst with
    | some callee =>
      let (rest, last) := Block.inline callee? (next + callee.nextReg) rest
      (Block.rename (· + next) callee.body ++ rest, last)
    | none =>
      let (rest, last) := Block.inline callee? next rest
      (inst :: rest, last)

namespace Routine

def inlineCalls (p : Program α) (limit : Option Nat) (r : Routine α) : Routine α :=
  let (body, nextReg) := Block.inline (Inst.inlined? p limit r.name) r.nextReg r.body
  sync { r with body, nextReg }

end Routine

namespace Program

/-- Inline in every routine, each call by the body that the routine called had before; also returns
whether there was a call to inline. -/
def inlineCalls (p : Program α) (limit : Option Nat) : Program α × Bool :=
  ({ p with routines := p.routines.map (Routine.inlineCalls p limit) },
    p.routines.any fun r => r.body.any fun inst => (inst.inlined? p limit r.name).isSome)

end Program
end StreamStats
