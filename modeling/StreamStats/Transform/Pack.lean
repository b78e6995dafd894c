import StreamStats.Code

/-! Packing of straight-line code. A chunk is a run of loads and arithmetic that ends in a store.
Chunks of one form whose accesses go on by one element from chunk to chunk, or stay on one element,
are packed into a single chunk with a lane for each. -/

namespace StreamStats

variable {α : Type}

namespace Pack

/-- What a chunk operates on: the result of the piece at a position, or a number. -/
inductive Slot (α : Type) where
  | result (position : Nat)
  | imm (value : α)

/-- An instruction of a chunk with registers replaced by positions. -/
inductive Piece (α : Type) where
  | load (src : Address)
  | binary (op : Arith) (lhs rhs : Slot α)
  | store (dst : Address) (src : Slot α)

namespace Slot

def alike [Scalar α] : Slot α → Slot α → Bool
  | result p, result q => p == q
  | imm x, imm y => Scalar.same x y
  | _, _ => false

def operand (first : Reg) : Slot α → Operand α
  | result p => .reg (first + p)
  | imm value => .imm value

end Slot

namespace Piece

def alike [Scalar α] : Piece α → Piece α → Bool
  | load _, load _ => true
  | binary op l r, binary op' l' r' => op == op' && l.alike l' && r.alike r'
  | store _ s, store _ s' => s.alike s'
  | _, _ => false

def address? : Piece α → Option Address
  | load a | store a _ => some a
  | binary _ _ _ => none

end Piece

/-- The position of the last setting of a register, the registers set so far being given newest
first. -/
def position? (r : Reg) : List Reg → Option Nat
  | [] => none
  | d :: ds => if d = r then some ds.length else position? r ds

def slot? (set : List Reg) : Operand α → Option (Slot α)
  | .imm value => some (.imm value)
  | .reg r => (position? r set).map .result

/-- The pieces of a chunk, if all its accesses are single and fixed and it reads only what it
sets. -/
def pieces? (set : List Reg) : List (Inst α) → Option (List (Piece α))
  | [] => some []
  | .load dst src lanes :: rest =>
    if lanes = 1 ∧ src.stride = 0 then (pieces? (dst :: set) rest).map (.load src :: ·) else none
  | .binary dst op lhs rhs :: rest =>
    match slot? set lhs, slot? set rhs, pieces? (dst :: set) rest with
    | some l, some r, some pieces => some (.binary op l r :: pieces)
    | _, _, _ => none
  | .store dst src lanes :: rest =>
    match slot? set src, pieces? set rest with
    | some s, some pieces =>
      if lanes = 1 ∧ dst.stride = 0 then some (.store dst s :: pieces) else none
    | _, _ => none
  | _ :: _ => none

/-- Nothing outside the chunk reads what it sets, given how often registers are read. -/
def isClosed (uses : RegMap Nat) (chunk : Block α) : Bool :=
  (chunk.filterMap Inst.target?).all fun r => (uses.get? r).getD 0 == (Block.uses chunk).count r

/-- A chunk with its pieces, if it has them, or an instruction outside of chunks. -/
inductive Item (α : Type) where
  | chunk (body : Block α) (pieces? : Option (List (Piece α)))
  | single (inst : Inst α)

namespace Item

def body : Item α → Block α
  | chunk body _ => body
  | single inst => [inst]

def pieces? : Item α → Option (List (Piece α))
  | chunk _ pieces? => pieces?
  | single _ => none

end Item

def ofChunk (uses : RegMap Nat) (chunk : Block α) : Item α :=
  .chunk chunk (if isClosed uses chunk then Pack.pieces? [] chunk else none)

/-- Cut a block into chunks; `pending` are the instructions since the last cut, newest first. -/
def split (uses : RegMap Nat) (pending : List (Inst α)) : List (Inst α) → List (Item α)
  | [] => pending.reverse.map .single
  | inst :: rest =>
    match inst with
    | .load _ _ _ | .binary _ _ _ _ => split uses (inst :: pending) rest
    | .store _ _ _ => ofChunk uses (inst :: pending).reverse :: split uses [] rest
    | .call _ | .loop _ _ _ _ =>
      pending.reverse.map .single ++ .single inst :: split uses [] rest

def addresses (pieces : List (Piece α)) : List Address := pieces.filterMap Piece.address?

def strides (first second : List (Piece α)) : List Int :=
  List.zipWith (fun a b => b.offset - a.offset) (addresses first) (addresses second)

/-- The chunk has the form of the first, and its accesses are `k` strides further on. -/
def fits [Scalar α] (first : List (Piece α)) (steps : List Int) (pieces : List (Piece α))
    (k : Nat) :
    Bool :=
  first.length == pieces.length && (List.zipWith Piece.alike pieces first).all id &&
    (((addresses pieces).zip (addresses first)).zip steps).all fun ((a, f), s) =>
      a.segment == f.segment && a.offset == f.offset + k * s

def target? (pieces : List (Piece α)) : Option (Nat × Int) :=
  pieces.findSome? fun
    | .store a _ => some (a.segment, a.offset)
    | _ => none

def sources (pieces : List (Piece α)) : List (Nat × Int) :=
  pieces.filterMap fun
    | .load a => some (a.segment, a.offset)
    | _ => none

/-- No chunk loads what one before it stores. -/
def isIndependent : List (List (Piece α)) → Bool
  | [] => true
  | chunk :: later =>
    later.all (fun next => !(target? chunk).any (sources next).contains) && isIndependent later

/-- The strides of the accesses, one for each, if the chunks can be packed. The store moves. -/
def strides? [Scalar α] (chunks : List (List (Piece α))) : Option (List Int) :=
  match chunks with
  | first :: second :: _ =>
    let steps := strides first second
    if steps.all (fun s => s == 0 || s == 1) && steps.getLast? == some 1 &&
        chunks.zipIdx.all (fun (chunk, k) => fits first steps chunk k) && isIndependent chunks then
      some steps
    else none
  | _ => none

def emit (first : Reg) (lanes : Nat) : Nat → List (Piece α) → List Int → Block α
  | p, .load a :: pieces, s :: steps =>
    .load (first + p) { a with stride := s } (if s = 1 then lanes else 1) ::
      emit first lanes (p + 1) pieces steps
  | p, .binary op l r :: pieces, steps =>
    .binary (first + p) op (l.operand first) (r.operand first) ::
      emit first lanes (p + 1) pieces steps
  | p, .store a s :: pieces, _ :: steps =>
    .store { a with stride := 1 } (s.operand first) lanes :: emit first lanes (p + 1) pieces steps
  | _, _, _ => []

/-- The first `width` items as one chunk, with the number of registers it sets. -/
def bundle? [Scalar α] (width : Nat) (next : Reg) (items : List (Item α)) :
    Option (Block α × Nat) := do
  guard (width ≤ items.length)
  let chunks ← (items.take width).mapM Item.pieces?
  let steps ← strides? chunks
  let first ← chunks.head?
  return (emit next width 0 first steps, first.length - 1)

/-- Pack from the front on, after leaving out `skip` items that a bundle has covered. Also returns
the next free register and the number of bundles. -/
def pack [Scalar α] (width : Nat) : Nat → Reg → List (Item α) → Block α × Reg × Nat
  | _, next, [] => ([], next, 0)
  | skip + 1, next, _ :: items => pack width skip next items
  | 0, next, item :: items =>
    match bundle? width next (item :: items) with
    | some (bundle, count) =>
      let (rest, next, bundles) := pack width (width - 1) (next + count) items
      (bundle ++ rest, next, bundles + 1)
    | none =>
      let (rest, next, bundles) := pack width 0 next items
      (item.body ++ rest, next, bundles)

end Pack

namespace Routine

/-- Pack the chunks of a routine; also returns the number of bundles. A width below two packs
nothing. -/
def packChunks [Scalar α] (r : Routine α) (width : Nat) : Routine α × Nat :=
  if width < 2 then (r, 0)
  else
    let r := r.sync
    let items := Pack.split (RegMap.tally (Block.uses r.body)) [] r.body
    let (body, nextReg, count) := Pack.pack width 0 r.nextReg items
    ({ r with body, nextReg }, count)

end Routine
end StreamStats
