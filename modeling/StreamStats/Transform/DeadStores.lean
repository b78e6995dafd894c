import StreamStats.Transform.DeadCode

/-! Removal of stores to scratch segments that nothing loads from. Scratch segments are made anew in
every run, so such stores cannot be observed. A removal can make further code dead and further
segments unread, so rounds follow until one removes nothing. -/

namespace StreamStats

variable {α : Type}

mutual

def Inst.reads : Inst α → List Nat
  | .load _ src _ => [src.segment]
  | .loop _ _ _ body => Block.reads body
  | .store _ _ _ | .binary _ _ _ _ | .call _ => []

def Block.reads : List (Inst α) → List Nat
  | [] => []
  | inst :: rest => Inst.reads inst ++ Block.reads rest

end

mutual

def Inst.dropStores (dead : Nat → Bool) : Inst α → Option (Inst α)
  | .store dst src lanes => if dead dst.segment then none else some (.store dst src lanes)
  | .loop trips step parallel body => some (.loop trips step parallel (Block.dropStores dead body))
  | inst => some inst

def Block.dropStores (dead : Nat → Bool) : List (Inst α) → List (Inst α)
  | [] => []
  | inst :: rest => (Inst.dropStores dead inst).toList ++ Block.dropStores dead rest

end

namespace Routine

/-- Drop stores, and what is dead without them; a routine without such stores is left as it is. -/
def dropStores (dead : Nat → Bool) (r : Routine α) : Routine α :=
  let body := Block.dropStores dead r.body
  if Block.size body < r.size then sweep { r with body } else r

end Routine

namespace Program

def reads (p : Program α) : List Nat := p.routines.flatMap fun r => Block.reads r.body

/-- The scratch segments that nothing loads from. -/
def unread (p : Program α) : List Nat :=
  let reads := p.reads
  (List.range p.segments.size).filter fun segment =>
    (p.segments[segment]?).any (·.role = .scratch) && !reads.contains segment

def dropStores (p : Program α) : Program α :=
  let unread := p.unread
  { p with routines := p.routines.map (Routine.dropStores unread.contains) }

/-- Drop stores to unread segments until there are none. -/
def dropDeadStores (p : Program α) : Program α :=
  let next := p.dropStores
  if next.size < p.size then dropDeadStores next else p
termination_by p.size

end Program
end StreamStats
