import StreamStats.Code

/-! Removal of routines that no call from outside can reach. A name stands for the first routine
that has it; names of routines that do not exist are reached without consequence. -/

namespace StreamStats
namespace Program

variable {α : Type}

def calledFrom (p : Program α) (name : String) : List String :=
  ((p.routine? name).map Routine.callees).getD []

def externalNames (p : Program α) : List String :=
  (p.routines.filter fun r => r.linkage = .external).map Routine.name

def newlyReached (p : Program α) (reached : List String) : List String :=
  ((reached.flatMap p.calledFrom).filter (!reached.contains ·)).eraseDups

/-- Add what is called until nothing new is, for so many rounds at most. -/
def close (p : Program α) : Nat → List String → List String
  | 0, reached => reached
  | rounds + 1, reached =>
    match p.newlyReached reached with
    | [] => reached
    | new => close p rounds (reached ++ new)

/-- The names that calls from outside can reach. Every round but the last reaches another routine or
only names without one, so there are no more rounds than routines and one. -/
def reachable (p : Program α) : List String :=
  p.close (p.routines.length + 1) p.externalNames

def dropUnreachable (p : Program α) : Program α :=
  let reachable := p.reachable
  { p with routines := p.routines.filter fun r => reachable.contains r.name }

end Program
end StreamStats
