import StreamStats.Settings
import StreamStats.Settings.Toml

/-! Loading settings: a file's text with environment variables laid over it. What is not given has
its default, names that mean nothing are passed over, and what does not fit its field is an error. A
list in place of a table gives the fields in their order. -/

namespace StreamStats
namespace Settings

inductive Format where
  | toml
  | json
  deriving DecidableEq

def Format.read? : Format → String → Option Tree
  | .toml, s => Toml.read? s
  | .json, s => Json.read? s

def variableStart : String := "feature_compiler__"

def variablePath? (name : String) : Option Path :=
  let name := lower name
  if name.startsWith variableStart then
    some (Path.ofText (".".intercalate ((name.drop variableStart.length).toString.splitOn "__")))
  else none

/-- The file's entries with the values of environment variables over them. -/
def overlay (file : List (String × Tree)) (environment : List (String × String)) : Tree :=
  let root := file.foldl (fun root (key, value) => root.layAt (Path.ofText key) value)
    (Tree.table [])
  environment.foldl
    (fun root (name, word) =>
      match variablePath? name with
      | some path => root.layAt path (.ofWord word)
      | none => root)
    root

def field? (t : Tree) (position : Nat) (name : String) : Option Tree :=
  match t with
  | .list items => items[position]?
  | t => t.get? name

def fieldOr {β : Type} (t : Tree) (position : Nat) (name : String) (default : β)
    (read : Tree → Option β) : Option β :=
  match field? t position name with
  | some value => read value
  | none => some default

def group? (t : Tree) : Option Tree :=
  match t with
  | .table _ | .list _ => some t
  | _ => none

/-- Levels are single bytes. -/
def levelBound : Nat := 256

def codegen? (t : Tree) : Option Codegen.Options := do
  let t ← group? t
  let default : Codegen.Options := {}
  return {
    programName := ← fieldOr t 0 "module_name" default.programName Tree.text?
    unrollLimit := ← fieldOr t 1 "unroll_threshold" default.unrollLimit (Tree.natural? wordBound) }

def optimizer? (t : Tree) : Option OptimizerSettings := do
  let t ← group? t
  let default : OptimizerSettings := {}
  return {
    optLevel := ← fieldOr t 0 "opt_level" default.optLevel (Tree.natural? levelBound)
    sizeLevel := ← fieldOr t 1 "size_level" default.sizeLevel (Tree.natural? levelBound)
    widenLoops := ← fieldOr t 2 "loop_vectorize" default.widenLoops Tree.flag?
    packChunks := ← fieldOr t 3 "slp_vectorize" default.packChunks Tree.flag?
    vectorWidth := ← fieldOr t 4 "vector_width" default.vectorWidth (Tree.natural? wordBound)
    checksEach := ← fieldOr t 5 "verify_each" default.checksEach Tree.flag? }

def target? : Tree → Option (Option Target)
  | .null => some none
  | t => do
    let t ← group? t
    let name ← (← field? t 0 "name").text?
    let vectorWidth ← (← field? t 1 "vector_width").natural? wordBound
    return some { name, vectorWidth }

def ofTree? (t : Tree) : Option Settings := do
  return {
    codegen := ← fieldOr t 0 "lowering" {} codegen?
    optimizer := ← fieldOr t 1 "optimizer" {} optimizer?
    target := ← fieldOr t 2 "target" none target? }

/-- The settings from the text of a file, which may not exist, and environment variables. -/
def load (format : Format) (text : Option String) (environment : List (String × String)) :
    Option Settings := do
  match ← format.read? (withoutMark (← text)) with
  | .table entries => ofTree? (overlay entries environment)
  | _ => none

end Settings
end StreamStats
