import Clientele.Json.Number

/-!
Documents are trees of values. An object is a list of fields in the order in which they were first
written; the field found under a name is the first of that name.
-/
set_option autoImplicit false

namespace Clientele

inductive Json where
  | null
  | bool (b : Bool)
  | num (n : Number)
  | str (s : String)
  | arr (items : List Json)
  | obj (fields : List (String × Json))

abbrev Fields := List (String × Json)

namespace Fields

def get? : Fields → String → Option Json
  | [], _ => none
  | (k, v) :: fs, key => if k = key then some v else get? fs key

def has (fs : Fields) (key : String) : Bool := (fs.get? key).isSome

/-- Replaces the value where the key stands, and adds a new key at the end. -/
def set : Fields → String → Json → Fields
  | [], key, v => [(key, v)]
  | (k, w) :: fs, key, v => if k = key then (k, v) :: fs else (k, w) :: set fs key v

def overlay (fs patch : Fields) : Fields := patch.foldl (fun acc f => acc.set f.1 f.2) fs

/-- Applies `f` to the value under a key, or to nothing where the key is missing. -/
def update : Fields → String → (Option Json → Json) → Fields
  | [], key, f => [(key, f none)]
  | (k, w) :: fs, key, f => if k = key then (k, f (some w)) :: fs else (k, w) :: update fs key f

/-- Removes a field and moves the last field into the gap. -/
def takeOut (fs : Fields) (key : String) : Fields :=
  match fs.findIdx? (·.1 == key) with
  | none => fs
  | some i =>
    match fs.getLast? with
    | none => fs
    | some last => if i + 1 = fs.length then fs.dropLast else fs.dropLast.set i last

def keys (fs : Fields) : List String := fs.map (·.1)

end Fields

namespace Json

def kind : Json → String
  | .null => "null"
  | .bool _ => "boolean"
  | .num _ => "number"
  | .str _ => "string"
  | .arr _ => "array"
  | .obj _ => "object"

def ofNat (n : Nat) : Json := .num (.ofNat n)

def text? : Json → Option String
  | .str s => some s
  | _ => none

def items? : Json → Option (List Json)
  | .arr xs => some xs
  | _ => none

def fields? : Json → Option Fields
  | .obj fs => some fs
  | _ => none

def get? (v : Json) (key : String) : Option Json := v.fields?.bind (·.get? key)

mutual

/-- Equality of values. Objects are equal when they have the same keys with equal values, in any
order. -/
def same : Json → Json → Bool
  | .null, .null => true
  | .bool a, .bool b => a == b
  | .num a, .num b => a.same b
  | .str a, .str b => a == b
  | .arr xs, .arr ys => sameItems xs ys
  | .obj fs, .obj gs => fs.length == gs.length && sameFields fs gs
  | _, _ => false

def sameItems : List Json → List Json → Bool
  | [], [] => true
  | x :: xs, y :: ys => same x y && sameItems xs ys
  | _, _ => false

def sameFields : List (String × Json) → List (String × Json) → Bool
  | [], _ => true
  | (k, v) :: fs, gs =>
    (match Fields.get? gs k with
      | some w => same v w
      | none => false) && sameFields fs gs

end

mutual

/-- Of fields with one name only the first place and the last value are kept, at every depth. -/
def collapse : Json → Json
  | .arr xs => .arr (collapseItems xs)
  | .obj fs => .obj (Fields.overlay [] (collapseFields fs))
  | v => v

def collapseItems : List Json → List Json
  | [] => []
  | x :: xs => collapse x :: collapseItems xs

def collapseFields : List (String × Json) → List (String × Json)
  | [] => []
  | (k, v) :: fs => (k, collapse v) :: collapseFields fs

end

end Json

end Clientele
