import StreamStats.Settings.Json
import StreamStats.Settings.Toml.Draft

/-! Settings in TOML, one statement a line: tables under headers, and keys with texts, whole
numbers, flags and tables within the line for values. Tables nest to a fixed depth. -/

namespace StreamStats
namespace Settings
namespace Toml

def skipBlanks (cs : List Char) : List Char := cs.dropWhile fun c => c == ' ' || c == '\t'

def isText (c : Char) : Bool := c == '\t' || (0x20 ≤ c.toNat && c.toNat != 0x7f)

def isVoid (cs : List Char) : Bool :=
  match skipBlanks cs with
  | [] => true
  | c :: cs => c == '#' && cs.all isText

def hexDigits? (cs : List Char) : Option Nat := do
  let ns ← cs.mapM Json.hexDigit?
  return ns.foldl (fun n k => n * 16 + k) 0

def numbered (count : Nat) (cs : List Char) : Option (Char × List Char) := do
  guard (count ≤ cs.length)
  let n ← hexDigits? (cs.take count)
  guard (n < 0xd800 ∨ (0xe000 ≤ n ∧ n < 0x110000))
  return (Char.ofNat n, cs.drop count)

def escaped : List Char → Option (Char × List Char)
  | '/' :: _ => none
  | 'u' :: cs => numbered 4 cs
  | 'U' :: cs => numbered 8 cs
  | cs => Json.escaped cs

def characters (fuel : Nat) (read : List Char) (cs : List Char) : Option (String × List Char) :=
  match fuel, cs with
  | _, '"' :: cs => some (String.ofList read.reverse, cs)
  | fuel + 1, '\\' :: cs => do
    let (c, cs) ← escaped cs
    characters fuel (c :: read) cs
  | fuel + 1, c :: cs => if isText c then characters fuel (c :: read) cs else none
  | _, _ => none

/-- The characters up to the closing mark as they are. -/
def plainCharacters (cs : List Char) : Option (String × List Char) := do
  let read := cs.takeWhile (· != '\'')
  let _ :: rest := cs.dropWhile (· != '\'') | none
  guard (read.all isText)
  return (String.ofList read, rest)

def isBare (c : Char) : Bool := c.isAlphanum || c == '_' || c == '-'

def key (cs : List Char) : Option (String × List Char) :=
  match cs with
  | '"' :: cs => characters cs.length [] cs
  | '\'' :: cs => plainCharacters cs
  | cs =>
    if cs.takeWhile isBare = [] then none
    else some (String.ofList (cs.takeWhile isBare), cs.dropWhile isBare)

def keysFrom (fuel : Nat) (cs : List Char) : Option (List String × List Char) := do
  let (first, cs) ← key (skipBlanks cs)
  match fuel, skipBlanks cs with
  | fuel + 1, '.' :: cs => do
    let (rest, cs) ← keysFrom fuel cs
    return (first :: rest, cs)
  | _, cs => return ([first], cs)

/-- How deep tables nest within a line, and how many keys have points between them. -/
def depthLimit : Nat := 79

def keys (cs : List Char) : Option (List String × List Char) := do
  let (path, cs) ← keysFrom cs.length cs
  guard (path.length ≤ depthLimit)
  return (path, cs)

def digits? (isDigit : Char → Bool) (cs : List Char) : Option (List Char) := do
  guard (((String.ofList cs).splitOn "_").all fun group => group ≠ "" && group.toList.all isDigit)
  return cs.filter (· != '_')

def decimal? (cs : List Char) : Option Nat := do
  let cs ← digits? Char.isDigit cs
  guard (cs.head? = some '0' → cs.length = 1)
  Text.digits? cs

/-- The value of digits to a base. -/
def based? (base : Nat) (cs : List Char) : Option Nat := do
  let cs ← digits? (fun c => ((Json.hexDigit? c).filter (· < base)).isSome) cs
  let ns ← cs.mapM Json.hexDigit?
  return ns.foldl (fun n k => n * base + k) 0

def integer? (cs : List Char) : Option Int := do
  let n : Int ← match cs with
    | '0' :: 'x' :: cs => (based? 16 cs).map Int.ofNat
    | '0' :: 'o' :: cs => (based? 8 cs).map Int.ofNat
    | '0' :: 'b' :: cs => (based? 2 cs).map Int.ofNat
    | '-' :: cs => (decimal? cs).map fun n => -(n : Int)
    | '+' :: cs => (decimal? cs).map Int.ofNat
    | cs => (decimal? cs).map Int.ofNat
  guard (-(signBound : Int) ≤ n ∧ n < signBound)
  return n

def bareValue (cs : List Char) : Option (Draft × List Char) :=
  let isPart := fun c : Char => isBare c || c == '+'
  let token := cs.takeWhile isPart
  let rest := cs.dropWhile isPart
  if token = "true".toList then some (.done (.flag true), rest)
  else if token = "false".toList then some (.done (.flag false), rest)
  else (integer? token).map fun n => (.done (.int n), rest)

mutual

/-- A value in which tables may still nest so deep. -/
def value (depth fuel : Nat) (cs : List Char) : Option (Draft × List Char) :=
  match fuel, cs with
  | 0, _ => none
  | _ + 1, '"' :: cs => (characters cs.length [] cs).map fun (s, cs) => (.done (.text s), cs)
  | _ + 1, '\'' :: cs => (plainCharacters cs).map fun (s, cs) => (.done (.text s), cs)
  | fuel + 1, '\x7b' :: cs =>
    if depth = 0 then none
    else match skipBlanks cs with
      | '\x7d' :: cs => some (Draft.empty.close, cs)
      | cs => entries (depth - 1) fuel .empty cs
  | _ + 1, cs => bareValue cs

def entries (depth fuel : Nat) (read : Draft) (cs : List Char) : Option (Draft × List Char) :=
  match fuel with
  | 0 => none
  | fuel + 1 => do
    let (keys, item, cs) ← entry depth fuel cs
    let read ← read.enter keys item
    match skipBlanks cs with
    | ',' :: cs => entries depth fuel read cs
    | '\x7d' :: cs => return (read.close, cs)
    | _ => none

/-- Keys and the value that they are given. -/
def entry (depth fuel : Nat) (cs : List Char) : Option (List String × Draft × List Char) :=
  match fuel with
  | 0 => none
  | fuel + 1 => do
    let (keys, cs) ← keys cs
    let '=' :: cs := skipBlanks cs | none
    let (item, cs) ← value depth fuel (skipBlanks cs)
    return (keys, item, cs)

end

/-- The text so far: what it holds, and the table that keys go to now. -/
structure Document where
  root : Draft
  current : List String

def Document.statement (d : Document) (line : List Char) : Option Document :=
  match skipBlanks line with
  | '[' :: cs => do
    let (path, cs) ← keys cs
    let ']' :: cs := skipBlanks cs | none
    guard (isVoid cs)
    return ⟨← d.root.head path, path⟩
  | cs =>
    if isVoid cs then some d
    else do
      let (keys, item, cs) ← entry depthLimit (cs.length + 2) cs
      guard (isVoid cs)
      return { d with root := ← d.root.within (·.enter keys item) d.current }

def chomp (line : List Char) : List Char :=
  if line.getLast? = some '\r' then line.dropLast else line

def linesOf (s : String) : List (List Char) :=
  let lines := (s.splitOn "\n").map String.toList
  lines.dropLast.map chomp ++ lines.getLast?.toList

/-- The table that a text holds; a mark of the encoding may stand before it. -/
def read? (s : String) : Option Tree := do
  let d ← (linesOf (withoutMark s)).foldlM Document.statement ⟨.empty, []⟩
  d.root.toTree?

end Toml
end Settings
end StreamStats
