import StreamStats.Code

/-! Removal of code that does nothing: loads and arithmetic whose register nothing reads, and loops
that are empty or never run. What is removed may have been the last reader of something else, so
rounds follow until one removes nothing. -/

namespace StreamStats

variable {α : Type}

mutual

def Inst.prune (used : Reg → Bool) : Inst α → Option (Inst α)
  | .load dst src lanes => if used dst then some (.load dst src lanes) else none
  | .binary dst op lhs rhs => if used dst then some (.binary dst op lhs rhs) else none
  | .loop trips step parallel body =>
    let body := Block.prune used body
    if body.isEmpty || trips == 0 then none else some (.loop trips step parallel body)
  | .store dst src lanes => some (.store dst src lanes)
  | .call callee => some (.call callee)

def Block.prune (used : Reg → Bool) : List (Inst α) → List (Inst α)
  | [] => []
  | inst :: rest => (Inst.prune used inst).toList ++ Block.prune used rest

end

mutual

/-- Whether pruning reports a change: it removes an instruction, or one from the body of a loop. -/
def Inst.pruneReports (used : Reg → Bool) : Inst α → Bool
  | .loop trips step parallel body =>
    Block.pruneReports used body || (Inst.prune used (.loop trips step parallel body)).isNone
  | inst => (Inst.prune used inst).isNone

def Block.pruneReports (used : Reg → Bool) : List (Inst α) → Bool
  | [] => false
  | inst :: rest => Inst.pruneReports used inst || Block.pruneReports used rest

end

namespace Block

def pruneUnused (body : Block α) : Block α := prune (RegMap.tally (uses body)).contains body

/-- Prune until nothing is left to remove. -/
def sweep (body : Block α) : Block α :=
  let next := pruneUnused body
  if size next < size body then sweep next else body
termination_by size body

def sweepReports (body : Block α) : Bool := pruneReports (RegMap.tally (uses body)).contains body

end Block

namespace Routine

def sweep (r : Routine α) : Routine α := { r with body := Block.sweep r.body }

def sweepReports (r : Routine α) : Bool := Block.sweepReports r.body

end Routine
end StreamStats
