import Clientele.Json.Value
import Clientele.Text.Basic

/-!
Dotted paths into a document. Reading goes down objects by key and lists by index; a name applied
to a list collects what the items have under it. Writing makes objects on the way.
-/
set_option autoImplicit false

namespace Clientele

/-- The names between the dots. -/
structure Path where
  segments : List String
  deriving DecidableEq, Repr

namespace Path

def ofText (s : String) : Path := ⟨Text.splitText '.' s⟩

def text (p : Path) : String := Text.joinText '.' p.segments

/-- The path that leads on by a key, which may itself be dotted. -/
def under (p : Path) (key : String) : Path := ⟨p.segments ++ Text.splitText '.' key⟩

def primaryKey : String := "_id"

def normalize (p : Path) : Path := ⟨p.segments.map fun s => if s = "id" then primaryKey else s⟩

end Path

namespace Json

/-- The index that a segment names: digits, which a plus may precede, below 2^64. -/
def index? (segment : String) : Option Nat :=
  let ds := match segment.toList with
    | '+' :: ds => ds
    | ds => ds
  if ds ≠ [] ∧ ds.all Char.isDigit then
    let n := Number.natOfDigits ds
    if n < 0x10000000000000000 then some n else none
  else none

mutual

def resolve : Json → List String → Option Json
  | v, [] => some v
  | .obj fs, s :: rest => resolveField fs s rest
  | .arr xs, s :: rest =>
    match index? s with
    | some i => resolveItem xs i rest
    | none =>
      match resolveEach xs (s :: rest) with
      | [] => none
      | vs => some (.arr vs)
  | _, _ :: _ => none

def resolveField : List (String × Json) → String → List String → Option Json
  | [], _, _ => none
  | (k, v) :: fs, s, rest => if k = s then resolve v rest else resolveField fs s rest

def resolveItem : List Json → Nat → List String → Option Json
  | [], _, _ => none
  | x :: _, 0, rest => resolve x rest
  | _ :: xs, i + 1, rest => resolveItem xs i rest

def resolveEach : List Json → List String → List Json
  | [], _ => []
  | x :: xs, path =>
    match resolve x path with
    | some v => v :: resolveEach xs path
    | none => resolveEach xs path

end

def at? (v : Json) (p : Path) : Option Json := v.resolve p.segments

/-- Writes a value at the end of the segments. What is not an object on the way is replaced. -/
def setSegments (new : Json) : List String → Json → Json
  | [], _ => new
  | s :: rest, current =>
    .obj (Fields.update (current.fields?.getD []) s fun old =>
      setSegments new rest (old.getD (.obj [])))

def setAt (v : Json) (p : Path) (new : Json) : Json := setSegments new p.segments v

def isNull : Json → Bool
  | .null => true
  | _ => false

/-- The keys that a value gives for a join: those in it if it is a list, otherwise the value
itself; null is no key. -/
def keysOf : Option Json → List Json
  | none => []
  | some .null => []
  | some (.arr xs) => xs.filter (!·.isNull)
  | some v => [v]

def keysAt (v : Json) (p : Path) : List Json := keysOf (v.at? p)

end Json

end Clientele
