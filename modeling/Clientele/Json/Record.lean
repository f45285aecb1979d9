import Clientele.Json.Value

/-!
Records of known fields inside a document. A record is an object, where unknown keys count for
nothing and a known key stands once, or a list of the values in the order of the fields, where
values at the end may be left out. A slot holds the value given for a field, if there is one.
-/
set_option autoImplicit false

namespace Clientele.Json

def slots? (names : List String) : Json → Option (List (Option Json))
  | .obj fs =>
    if names.all fun n => (fs.filter (·.1 == n)).length ≤ 1 then some (names.map (Fields.get? fs))
    else none
  | .arr xs =>
    if xs.length ≤ names.length then
      some (xs.map some ++ List.replicate (names.length - xs.length) none)
    else none
  | _ => none

/-- A record whose kind is told under the key `tag`, or at the head of a list: the kind and the
rest of the record. -/
def tagged? (tag : String) : Json → Option (Json × Json)
  | .obj fs =>
    match fs.filter (·.1 == tag) with
    | [(_, t)] => some (t, .obj (fs.filter (·.1 != tag)))
    | _ => none
  | .arr (t :: xs) => some (t, .arr xs)
  | _ => none

/-- A field that may be left out, but is not null. -/
def withDefault? {α : Type} (default : α) (read : Json → Option α) : Option Json → Option α
  | none => some default
  | some v => read v

/-- A field that may be left out or null. -/
def optional? {α : Type} (read : Json → Option α) : Option Json → Option (Option α)
  | none => some none
  | some .null => some none
  | some v => (read v).map some

/-- The name of a case: a string, or an object with that one key and null under it. -/
def caseName? : Json → Option String
  | .str s => some s
  | .obj [(k, .null)] => some k
  | _ => none

def looseCaseName? : Json → Option String
  | .str s => some s
  | .obj [(k, .null)] | .obj [(k, .obj [])] => some k
  | _ => none

def nat? : Json → Option Nat
  | .num n => n.toNat?
  | _ => none

def int64? : Json → Option Int64
  | .num n => n.toInt64?.map Int64.ofInt
  | _ => none

def listOf? {α : Type} (read : Json → Option α) : Json → Option (List α)
  | .arr xs => xs.mapM read
  | _ => none

def optionalField (key : String) : Option Json → Fields
  | none => []
  | some v => [(key, v)]

def orNull : Option Json → Json
  | none => .null
  | some v => v

end Clientele.Json
