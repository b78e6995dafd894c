import StreamStats.Code
import StreamStats.Decimal.Shortest

/-! The text form of programs: one line for the name, for each segment and for each instruction,
blocks indented by two spaces. -/

namespace StreamStats

/-- Values that code can show. -/
class Written (α : Type) where
  write : α → String

/-- Immediate numbers show a point or an exponent; the point stays in place from 0.0001 up to below
10^16. -/
def immediateLayout : Decimal.Layout where
  isPositional power := -4 ≤ power && power ≤ 15
  keepsPoint := true
  indefinite := "NaN"
  infinite := "inf"

instance : Written Float := ⟨Decimal.writeFloat immediateLayout⟩

variable {α : Type} [Written α]

def Operand.text : Operand α → String
  | .reg r => "%" ++ toString r
  | .imm value => Written.write value

def Address.text (a : Address) : String :=
  "@" ++ toString a.segment ++ "[" ++ toString a.offset ++ " + " ++ toString a.stride ++ "i]"

def indent (depth : Nat) (line : String) : String :=
  String.join (List.replicate depth "  ") ++ line ++ "\n"

mutual

def Inst.text (depth : Nat) : Inst α → String
  | .load dst src lanes => indent depth s!"%{dst} = load x{lanes} {src.text}"
  | .store dst src lanes => indent depth s!"store x{lanes} {dst.text}, {src.text}"
  | .binary dst op lhs rhs => indent depth s!"%{dst} = {op.word} {lhs.text}, {rhs.text}"
  | .call callee => indent depth ("call " ++ callee)
  | .loop trips step parallel body =>
    indent depth ((if parallel then "parallel " else "") ++ s!"loop {trips} step {step} \x7b") ++
      Block.text (depth + 1) body ++ indent depth "\x7d"

def Block.text (depth : Nat) : List (Inst α) → String
  | [] => ""
  | inst :: rest => Inst.text depth inst ++ Block.text depth rest

end

def Linkage.text : Linkage → String
  | .external => "External"
  | .internal => "Internal"

def InlineHint.text : InlineHint → String
  | .default => "Default"
  | .always => "Always"
  | .never => "Never"

def Role.text : Role → String
  | .input => "Input"
  | .output => "Output"
  | .state => "State"
  | .constant => "Constant"
  | .scratch => "Scratch"

def Routine.text (r : Routine α) : String :=
  "fn " ++ r.name ++ " (" ++ r.linkage.text ++ ", inline " ++ r.hint.text ++ ") \x7b\n" ++
    Block.text 1 r.body ++ "\x7d\n"

def Segment.text {α : Type} (id : Nat) (s : Segment α) : String :=
  "@" ++ toString id ++ " " ++ s.name ++ " " ++ s.role.text ++ " [" ++ toString s.size ++ "]\n"

def Program.text (p : Program α) : String :=
  "module " ++ p.name ++ "\n" ++
    String.join (p.segments.toList.zipIdx.map fun (s, id) => s.text id) ++
    String.join (p.routines.map Routine.text)

end StreamStats
