import StreamStats.Text.Digits

/-! Paths into trees of settings: keys with points between them, and positions in lists behind a
key. -/

namespace StreamStats
namespace Settings

inductive Step where
  | key (name : String)
  /-- A negative position counts from the end. -/
  | position (index : Int)
  deriving DecidableEq

abbrev Path := List Step

/-- Plain letters become small ones, and so does the sign of the kelvin, whose small letter is a
plain one. -/
def lower (s : String) : String := s.map fun c => if c = '\u212a' then 'k' else c.toLower

namespace Path

def isPlain (c : Char) : Bool := c.isAlphanum || c == '_' || c == '-' || c == ' '

def isBlank (c : Char) : Bool := c == ' ' || c == '\t'

def position? (cs : List Char) : Option Step := do
  guard (cs.getLast? = some ']')
  let number := ((cs.dropLast.dropWhile isBlank).reverse.dropWhile isBlank).reverse
  guard (number.head? ≠ some '+')
  return .position (← Text.signed? number)

/-- A key, in small letters, and the positions behind it. -/
def part? (part : String) : Option Path :=
  match part.splitOn "[" with
  | [] => none
  | name :: positions => do
    guard (name ≠ "" ∧ name.toList.all isPlain)
    return .key (lower name) :: (← positions.mapM fun position => position? position.toList)

/-- The path that a text gives, in small letters. Text of another form is a single key. -/
def ofText (text : String) : Path :=
  match (text.splitOn ".").mapM part? with
  | some parts => parts.flatten
  | none => [.key (lower text)]

end Path
end Settings
end StreamStats
