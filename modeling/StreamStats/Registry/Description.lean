import StreamStats.Registry
import StreamStats.Text.Blank
import StreamStats.Text.Digits

/-! Descriptions declare features by a list of fields: the id, which may be left empty, the word for
the kind, the id of the feature read (not for an input), and a positive number. -/

namespace StreamStats
namespace Registry

open Feature (Kind)

variable {α : Type}

def positive? (token : String) : Option Nat :=
  (Text.unsigned? (Text.trim token.toList)).filter (0 < ·)

def number (kind : Kind) (token : String) : Except FeatureError Nat :=
  match positive? token with
  | some n => .ok n
  | none => .error (.notPositive kind token)

def chooseId (r : Registry α) (kind : Kind) (token : String) : String :=
  if token = "" then r.freshId kind else token

def resolve (r : Registry α) (token : String) : Except FeatureError Nat :=
  match r.indexOf? token with
  | some index => .ok index
  | none => .error (.unknownReference token)

/-- The feature that a description declares after those of the registry. -/
def describe (r : Registry α) (fields : List String) : Except FeatureError (Feature α) :=
  match fields[1]? with
  | none => .error .missingKind
  | some tag =>
    match Kind.ofTag? tag, fields with
    | none, _ => .error (.unknownKind tag)
    | some .input, [id, _, dimension] => do
      let dimension ← number .input dimension
      return .ofInput (r.chooseId .input id) dimension
    | some (.windowed statistic), [id, _, source, window] => do
      let source ← r.resolve source
      let window ← number (.windowed statistic) window
      Feature.ofWindow (r.chooseId (.windowed statistic) id) statistic source window
    | some kind, fields => .error (.fieldCount kind fields.length)

def declare (r : Registry α) (fields : List String) : Except FeatureError (Nat × Registry α) := do
  r.insert (← r.describe fields)

def ofDescriptions (descriptions : List (List String)) : Except FeatureError (Registry α) :=
  descriptions.foldlM (fun r fields => return (← r.declare fields).2) empty

end Registry
end StreamStats
