import StreamStats.Feature.Wiring

/-! Features in the order of their declaration, each under an id of its own and each reading only
features declared before it. A sample is fed to all of them in that order, and in that order they
are wired into one circuit. -/

namespace StreamStats
namespace Registry

structure Entry (α : Type) where
  feature : Feature α
  value : List α

end Registry

structure Registry (α : Type) where
  entries : Array (Registry.Entry α)

namespace Registry

open Feature (Kind)

variable {α : Type}

def empty : Registry α := ⟨#[]⟩

def size (r : Registry α) : Nat := r.entries.size

def features (r : Registry α) : List (Feature α) := r.entries.toList.map Entry.feature

def indexOf? (r : Registry α) (id : String) : Option Nat :=
  r.entries.findIdx? fun entry => entry.feature.id == id

def isTaken (r : Registry α) (id : String) : Bool := (r.indexOf? id).isSome

/-- A feature is refused if it has no id or one in use, or reads a feature that is not there. -/
def insert (r : Registry α) (f : Feature α) : Except FeatureError (Nat × Registry α) :=
  if f.id = "" ∨ r.isTaken f.id then .error (.duplicateId f.id)
  else match f.source?.filter (r.size ≤ ·) with
    | some source => .error (.unknownIndex source)
    | none => .ok (r.size, ⟨r.entries.push ⟨f, []⟩⟩)

def numberedId (kind : Kind) (n : Nat) : String := kind.tag ++ "_" ++ toString n

/-- The first free numbered id, counting from the size of the registry. Among one more candidates
than there are features one is free. -/
def freshId (r : Registry α) (kind : Kind) : String :=
  (((List.range' r.size (r.size + 1)).map (numberedId kind)).find? (!r.isTaken ·)).getD ""

def value? (r : Registry α) (index : Nat) : Option (List α) := (r.entries[index]?).map Entry.value

/-- What a feature reads: the sample, or the value of the feature it names. -/
def inputs (fed : Array (Entry α)) (sample : List α) (f : Feature α) : List (List α) :=
  match f.source? with
  | none => [sample]
  | some source => [((fed[source]?).map Entry.value).getD []]

/-- Feed entry after entry; `fed` are those that have had the sample. At a failure the rest is
left. -/
def feedAll [Scalar α] (sample : List α) (fed : Array (Entry α)) :
    List (Entry α) → Except FeatureError Unit × Array (Entry α)
  | [] => (.ok (), fed)
  | entry :: rest =>
    match entry.feature.feed (inputs fed sample entry.feature) with
    | .ok (value, feature) => feedAll sample (fed.push ⟨feature, value⟩) rest
    | .error e => (.error e, fed ++ (entry :: rest).toArray)

def feed [Scalar α] (r : Registry α) (sample : List α) :
    Except FeatureError (List α) × Registry α :=
  if r.entries.isEmpty then (.error .emptyRegistry, r)
  else
    let (result, entries) := feedAll sample #[] r.entries.toList
    (result.map fun _ => (entries.back?.map Entry.value).getD [], ⟨entries⟩)

def reset (r : Registry α) : Registry α :=
  ⟨r.entries.map fun entry => ⟨entry.feature.reset, []⟩⟩

/-- A circuit with the bus of every feature. -/
structure Wired (α : Type) where
  circuit : Circuit α
  buses : Array Bus

def Wired.output (w : Wired α) : Bus := w.buses.back?.getD []

def wireAll [Scalar α] (buses : Array Bus) : List (Feature α) → Assembly α (Array Bus)
  | [] => return buses
  | f :: fs => do
    let bus ← f.wire (buses[·]?)
    wireAll (buses.push bus) fs

def wire [Scalar α] (r : Registry α) : Except FeatureError (Wired α) :=
  if r.entries.isEmpty then .error .emptyRegistry
  else
    let (result, circuit) := (wireAll #[] r.features).run Circuit.empty
    result.map (⟨circuit, ·⟩)

end Registry
end StreamStats
