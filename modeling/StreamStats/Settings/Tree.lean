import StreamStats.Decimal.Read
import StreamStats.Decimal.Shortest
import StreamStats.Settings.Path

/-! Trees of named values, as files and variables give them, one laid over the other, and what
values can stand for: a number may be given as text or as a flag, a flag as a number or a word. -/

namespace StreamStats
namespace Settings

/-- A text without the mark of its encoding, which may stand first. -/
def withoutMark (s : String) : String :=
  match s.toList with
  | '\ufeff' :: cs => String.ofList cs
  | _ => s

inductive Tree where
  | null
  | flag (value : Bool)
  | int (value : Int)
  | real (value : Float)
  | text (value : String)
  | list (items : List Tree)
  | table (entries : List (String × Tree))

namespace Tree

def get? (t : Tree) (key : String) : Option Tree :=
  match t with
  | table entries => entries.lookup key
  | _ => none

/-- The table with another value under a key; what is no table becomes one. -/
def put (t : Tree) (key : String) (value : Tree) : Tree :=
  match t with
  | table entries =>
    if (entries.lookup key).isSome then
      table (entries.map fun (k, v) => if k = key then (k, value) else (k, v))
    else table (entries ++ [(key, value)])
  | _ => table [(key, value)]

def getTable (t : Tree) (key : String) : Tree := (t.get? key).getD (table [])

def items : Tree → List Tree
  | list items => items
  | _ => []

def place (size : Nat) (index : Int) : Nat :=
  if 0 ≤ index then index.toNat else size - index.natAbs

def getItem (t : Tree) (index : Int) : Tree := t.items[place t.items.length index]?.getD null

/-- The list with another value at a position, nulls before it where there was nothing; what is no
list becomes one. -/
def putItem (t : Tree) (index : Int) (value : Tree) : Tree :=
  let place := place t.items.length index
  list ((t.items ++ List.replicate (place + 1 - t.items.length) null).set place value)

mutual

/-- Lay a value over what is under a key: tables are merged, their keys in small letters, and
anything else is replaced. -/
def lay (root : Tree) (key : String) : Tree → Tree
  | table entries => root.put key (layAll (root.getTable key) entries)
  | value => root.put key value

def layAll (root : Tree) : List (String × Tree) → Tree
  | [] => root
  | (key, value) :: rest => layAll (lay root (lower key) value) rest

end

/-- Lay a value over what is at the end of a path; at a position it replaces what is there. -/
def layAt (root : Tree) (path : Path) (value : Tree) : Tree :=
  match path with
  | [] => root
  | [.key name] => root.lay name value
  | [.position index] => root.putItem index value
  | .key name :: path => root.put name ((root.getTable name).layAt path value)
  | .position index :: path => root.putItem index ((root.getItem index).layAt path value)

def isYes (word : String) : Bool := ["true", "on", "yes"].contains word

def isNo (word : String) : Bool := ["false", "off", "no"].contains word

def natural? (bound : Nat) (t : Tree) : Option Nat :=
  (match t with
    | int n => if 0 ≤ n then some n.toNat else none
    | real x => some x.round.toUInt64.toNat
    | flag b => some b.toNat
    | text s =>
      if isYes (lower s) then some 1
      else if isNo (lower s) then some 0
      else Text.unsigned? s.toList
    | _ => none).filter (· < bound)

def flag? : Tree → Option Bool
  | flag b => some b
  | int n => some (n != 0)
  | real x => some (x != 0)
  | text s =>
    if isYes (lower s) || s == "1" then some true
    else if isNo (lower s) || s == "0" then some false
    else none
  | _ => none

def plainLayout : Decimal.Layout where
  isPositional _ := true
  keepsPoint := false
  indefinite := "NaN"
  infinite := "inf"

def text? : Tree → Option String
  | text s => some s
  | flag b => some (toString b)
  | int n => some (toString n)
  | real x => some (Decimal.writeFloat plainLayout x)
  | _ => none

def ofWord (s : String) : Tree :=
  if lower s = "true" then flag true
  else if lower s = "false" then flag false
  else match Text.signed? s.toList, Decimal.readFloat? s with
    | some n, _ => int n
    | none, some x => real x
    | none, none => text s

end Tree
end Settings
end StreamStats
