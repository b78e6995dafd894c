import StreamStats.Settings.Toml.Moment
import StreamStats.Settings.Tree

/-! Tables that are being written: a value is given once, a header stands once, and a table within a
line takes no more entries behind it. -/

namespace StreamStats
namespace Settings

/-- What made a table: its own header, a longer header, keys with points, or braces within a
line. -/
inductive TableKind where
  | headed
  | implied
  | dotted
  | inline
  deriving DecidableEq

inductive Draft where
  | done (value : Tree)
  | table (kind : TableKind) (entries : List (String × Draft))

namespace Draft

def empty : Draft := table .headed []

def close : Draft → Draft
  | done value => done value
  | table _ entries => table .inline entries

def change (key : String) (f : Option Draft → Option Draft) : Draft → Option Draft
  | done _ | table .inline _ => none
  | table kind entries => do
    let entry ← f (entries.lookup key)
    return table kind (if (entries.lookup key).isSome
      then entries.map fun (k, d) => if k = key then (k, entry) else (k, d)
      else entries ++ [(key, entry)])

/-- Whether keys with points lead into the table, so many of them still to come. The last table on
their way is one that such keys made, no table with a header is. -/
def isOpenTo (d : Draft) (keys : Nat) : Bool :=
  match d with
  | table .dotted _ => true
  | table .implied _ => 1 < keys
  | _ => false

/-- Put a value under keys with points between them. -/
def enter (d : Draft) (keys : List String) (value : Draft) : Option Draft :=
  match keys with
  | [] => none
  | [key] => d.change key fun
    | none => some value
    | some _ => none
  | key :: keys => d.change key fun
    | none => enter (table .dotted []) keys value
    | some inner => if inner.isOpenTo keys.length then enter inner keys value else none

def within (f : Draft → Option Draft) : List String → Draft → Option Draft
  | [], d => f d
  | key :: path, d => d.change key fun inner => within f path (inner.getD (table .implied []))

/-- Set up the table that a header names, behind the others. -/
def head : List String → Draft → Option Draft
  | [], _ => none
  | [_], done _ | [_], table .inline _ => none
  | [key], table kind entries =>
    match entries.lookup key with
    | none => some (table kind (entries ++ [(key, empty)]))
    | some (table .implied inner) =>
      some (table kind (entries.filter (·.1 ≠ key) ++ [(key, table .headed inner)]))
    | some _ => none
  | key :: path, d => d.change key fun inner => head path (inner.getD (table .implied []))

/-- The key that a table begins with when it stands for a moment. -/
def momentKey : String := "$__toml_private_datetime"

def moment? : Draft → Option Tree
  | done (.text s) => (Moment.ofText? s).map fun m => .text m.write
  | _ => none

mutual

/-- What has been written, if every table that stands for a moment does so rightly. -/
def toTree? : Draft → Option Tree
  | done value => some value
  | table _ [] => some (.table [])
  | table _ ((key, first) :: rest) =>
    if key = momentKey then moment? first
    else do return .table ((key, ← toTree? first) :: (← toEntries? rest))

def toEntries? : List (String × Draft) → Option (List (String × Tree))
  | [] => some []
  | (key, d) :: rest => do return (key, ← toTree? d) :: (← toEntries? rest)

end

end Draft
end Settings
end StreamStats
