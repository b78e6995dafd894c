import StreamStats.Decimal.Scaled
import StreamStats.Settings.Tree

/-! Settings in JSON. A reader takes text from the front and returns what it read with the rest.
Lists and tables nest to a fixed depth. -/

namespace StreamStats
namespace Settings
namespace Json

abbrev Reader (β : Type) := List Char → Option (β × List Char)

def skipBlanks (cs : List Char) : List Char :=
  cs.dropWhile fun c => c == ' ' || c == '\t' || c == '\n' || c == '\r'

def hexDigit? (c : Char) : Option Nat :=
  if c.isDigit then some (c.toNat - '0'.toNat)
  else if 'a' ≤ c ∧ c ≤ 'f' then some (c.toNat - 'a'.toNat + 10)
  else if 'A' ≤ c ∧ c ≤ 'F' then some (c.toNat - 'A'.toNat + 10)
  else none

def unit : Reader Nat
  | a :: b :: c :: d :: cs => do
    let ns ← [a, b, c, d].mapM hexDigit?
    return (ns.foldl (fun n k => n * 16 + k) 0, cs)
  | _ => none

/-- A character by number; those beyond 16 bits are given by two halves. -/
def numbered (cs : List Char) : Option (Char × List Char) := do
  let (n, cs) ← unit cs
  if 0xd800 ≤ n ∧ n < 0xdc00 then
    match cs with
    | '\\' :: 'u' :: cs =>
      let (m, cs) ← unit cs
      guard (0xdc00 ≤ m ∧ m < 0xe000)
      return (Char.ofNat (0x10000 + (n - 0xd800) * 0x400 + (m - 0xdc00)), cs)
    | _ => none
  else
    guard (n < 0xd800 ∨ 0xe000 ≤ n)
    return (Char.ofNat n, cs)

def escaped : Reader Char
  | '"' :: cs => some ('"', cs)
  | '\\' :: cs => some ('\\', cs)
  | '/' :: cs => some ('/', cs)
  | 'b' :: cs => some ('\x08', cs)
  | 'f' :: cs => some ('\x0c', cs)
  | 'n' :: cs => some ('\n', cs)
  | 'r' :: cs => some ('\r', cs)
  | 't' :: cs => some ('\t', cs)
  | 'u' :: cs => numbered cs
  | _ => none

def characters (fuel : Nat) (read : List Char) (cs : List Char) : Option (String × List Char) :=
  match fuel, cs with
  | _, '"' :: cs => some (String.ofList read.reverse, cs)
  | fuel + 1, '\\' :: cs => do
    let (c, cs) ← escaped cs
    characters fuel (c :: read) cs
  | fuel + 1, c :: cs => if c.toNat < 0x20 then none else characters fuel (c :: read) cs
  | _, _ => none

def fraction : Reader (List Char)
  | '.' :: cs => do
    guard (cs.takeWhile Char.isDigit ≠ [])
    return (cs.takeWhile Char.isDigit, cs.dropWhile Char.isDigit)
  | cs => some ([], cs)

def isInPower (c : Char) : Bool := c.isDigit || c == '-' || c == '+' || c == 'e' || c == 'E'

/-- A number. A whole one stays one if it fits 64 bits, but zero below zero does not. -/
def number (cs : List Char) : Option (Tree × List Char) := do
  let negative := cs.head? = some '-'
  let cs := if negative then cs.drop 1 else cs
  let whole := cs.takeWhile Char.isDigit
  guard (whole ≠ [] ∧ (whole.head? = some '0' → whole.length = 1))
  let (fraction, cs) ← fraction (cs.dropWhile Char.isDigit)
  let power := cs.takeWhile isInPower
  let rest := cs.dropWhile isInPower
  match Text.signed? (if negative then '-' :: whole else whole), fraction, power with
  | some n, [], [] =>
    if n = 0 ∧ negative then return (.real (-0.0), rest) else return (.int n, rest)
  | _, _, _ =>
    let x ← Decimal.scaled? whole fraction (← Decimal.power? power)
    return (.real (if negative then -x else x), rest)

mutual

/-- A value in which lists and tables may still nest so deep. -/
def value (depth : Nat) : Nat → List Char → Option (Tree × List Char)
  | 0, _ => none
  | fuel + 1, cs =>
    match cs with
    | 'n' :: 'u' :: 'l' :: 'l' :: cs => some (.null, cs)
    | 't' :: 'r' :: 'u' :: 'e' :: cs => some (.flag true, cs)
    | 'f' :: 'a' :: 'l' :: 's' :: 'e' :: cs => some (.flag false, cs)
    | '"' :: cs => (characters cs.length [] cs).map fun (s, cs) => (.text s, cs)
    | '[' :: cs =>
      if depth = 0 then none
      else match skipBlanks cs with
        | ']' :: cs => some (.list [], cs)
        | cs => items (depth - 1) fuel [] cs
    | '\x7b' :: cs =>
      if depth = 0 then none
      else match skipBlanks cs with
        | '\x7d' :: cs => some (.table [], cs)
        | cs => entries (depth - 1) fuel (.table []) cs
    | cs => number cs

/-- The items of a list from one on, `read` being those before it, the last one first. -/
def items (depth fuel : Nat) (read : List Tree) (cs : List Char) : Option (Tree × List Char) :=
  match fuel with
  | 0 => none
  | fuel + 1 => do
    let (item, cs) ← value depth fuel (skipBlanks cs)
    match skipBlanks cs with
    | ',' :: cs => items depth fuel (item :: read) cs
    | ']' :: cs => return (.list (item :: read).reverse, cs)
    | _ => none

/-- The entries of a table from one on; of several under one key the last counts. -/
def entries (depth fuel : Nat) (read : Tree) (cs : List Char) : Option (Tree × List Char) :=
  match fuel with
  | 0 => none
  | fuel + 1 =>
    match skipBlanks cs with
    | '"' :: cs => do
      let (key, cs) ← characters cs.length [] cs
      let ':' :: cs := skipBlanks cs | none
      let (item, cs) ← value depth fuel (skipBlanks cs)
      match skipBlanks cs with
      | ',' :: cs => entries depth fuel (read.put key item) cs
      | '\x7d' :: cs => return (read.put key item, cs)
      | _ => none
    | _ => none

end

def depthLimit : Nat := 127

def read? (s : String) : Option Tree := do
  let cs := s.toList
  let (tree, rest) ← value depthLimit (cs.length + 1) (skipBlanks cs)
  guard (skipBlanks rest = [])
  return tree

end Json
end Settings
end StreamStats
