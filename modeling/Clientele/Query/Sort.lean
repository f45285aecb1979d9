import Clientele.Json.Record
import Clientele.Document.Path
import Clientele.Document.Order

/-!
Sort requests and sort keys. Documents are compared key by key from the left; a key asks for the
value at its path, and a missing value comes first. A path that is asked for again decides nothing.
-/
set_option autoImplicit false

namespace Clientele.Query

inductive Direction where
  | ascending | descending
  deriving DecidableEq, Repr

def Direction.ofJson? (v : Json) : Option Direction :=
  v.caseName?.bind fun s =>
    if s = "ASC" then some .ascending else if s = "DESC" then some .descending else none

def Direction.toNumber : Direction → Number
  | ascending => .whole ⟨1, by decide, by decide⟩
  | descending => .whole ⟨-1, by decide, by decide⟩

def Direction.apply : Direction → Ordering → Ordering
  | ascending, o => o
  | descending, o => o.swap

structure SortKey where
  path : Path
  direction : Direction
  deriving DecidableEq, Repr

namespace SortKey

def ofJson? (v : Json) : Option SortKey :=
  match v.slots? ["field", "direction"] with
  | some [some field, some direction] => do
    let path ← field.text?
    let direction ← Direction.ofJson? direction
    pure ⟨Path.ofText path, direction⟩
  | _ => none

def compare (k : SortKey) (a b : Json) : Ordering :=
  k.direction.apply (Json.compareOptional (a.at? k.path) (b.at? k.path))

def normalize (k : SortKey) : SortKey := ⟨k.path.normalize, k.direction⟩

end SortKey

abbrev SortRequest := List SortKey

def SortRequest.ofJson? (v : Json) : Option SortRequest := v.listOf? SortKey.ofJson?

def firstOfPath (seen : List Path) : List SortKey → List SortKey
  | [] => []
  | k :: ks =>
    if k.path ∈ seen then firstOfPath seen ks else k :: firstOfPath (k.path :: seen) ks

def SortRequest.compile (r : SortRequest) : List SortKey := firstOfPath [] (r.map SortKey.normalize)

def compareBy : List SortKey → Json → Json → Ordering
  | [], _, _ => .eq
  | k :: ks, a, b => (k.compare a b).then (compareBy ks a b)

/-- Sorts documents; those that are alike keep their order. -/
def sortBy (ks : List SortKey) (docs : List Json) : List Json :=
  docs.mergeSort fun a b => compareBy ks a b != .gt

def sortJson (ks : List SortKey) : Json :=
  .obj (Fields.overlay [] (ks.map fun k => (k.path.text, .num k.direction.toNumber)))

end Clientele.Query
