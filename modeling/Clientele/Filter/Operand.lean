import Clientele.Filter.Operator
import Clientele.Identifier
import Clientele.Time.Stamp
import Clientele.Document.Order
import Clientele.Text.Basic

/-!
Operands take the type that the field calls for. A path through the primary key calls for an
identifier. A field that is named for a date, and not for a reference to something, calls for a
date. Every other field is compared as it stands.
-/
set_option autoImplicit false

namespace Clientele.Filter

inductive FieldKind where
  | identifier | date | plain
  deriving DecidableEq, Repr

def FieldKind.name : FieldKind → String
  | identifier => "Identifier"
  | date => "Date"
  | plain => "Plain"

def isReferenceName (s : String) : Bool :=
  ['I', 'd'].isSuffixOf s.toList || ['I', 'd', 's'].isSuffixOf s.toList

/-- Whether `date` occurs in a name in any case. No character beyond ASCII has one of these four
letters as its lower case. -/
def mentionsDate (s : String) : Bool :=
  Text.occursIn ['d', 'a', 't', 'e'] (s.toList.map Char.toLower)

def timestampNames : List String := ["createdAt", "updatedAt"]

def isDateName (s : String) : Bool :=
  timestampNames.contains s || (!isReferenceName s && mentionsDate s)

def fieldKind (p : Path) : FieldKind :=
  if p.segments.contains Path.primaryKey then .identifier
  else if isDateName (p.segments.getLastD "") then .date
  else .plain

/-- Operands that ask for nothing: null, an empty string, an empty list, a list of one empty
string. -/
def isBlank : Json → Bool
  | .null => true
  | .str s => s == ""
  | .arr [] => true
  | .arr [.str s] => s == ""
  | _ => false

/-- The instant that a value stands for: a stamp, a plain date, or milliseconds since 1970. -/
def dateOf? : Json → Option Time.Instant
  | .str s => (Time.strict? s).orElse fun _ => Time.midnight? s
  | .num n => n.toInt64?.bind Time.Instant.ofMillis?
  | _ => none

/-- An operand of the type that its field calls for. -/
inductive Operand where
  | json (v : Json)
  | date (t : Time.Instant)
  | id (i : Identifier)

namespace Operand

def compareStored? : Operand → Json → Option Ordering
  | json v, stored => Json.compareSameKind? stored v
  | date t, stored => (dateOf? stored).map (·.compare t)
  | id i, stored => (Identifier.ofJson? stored).map (·.compare i)

def compare? : Operand → Operand → Option Ordering
  | json a, json b => Json.compareSameKind? a b
  | date a, date b => some (a.compare b)
  | id a, id b => some (a.compare b)
  | _, _ => none

def toJson : Operand → Json
  | json v => v
  | date t => .obj [("$date", .str t.millis)]
  | id i => .obj [("$id", i.toJson)]

end Operand

def coerce (kind : FieldKind) (v : Json) : Except OperandFault Operand :=
  match kind with
  | .identifier => (Identifier.ofJson? v).elim (.error (.notIdentifier v)) fun i => .ok (.id i)
  | .date => (dateOf? v).elim (.error (.notDate v)) fun t => .ok (.date t)
  | .plain => .ok (.json v)

def coerceItems (kind : FieldKind) : List Json → Except OperandFault (List Operand)
  | [] => .ok []
  | v :: vs => do
    let o ← coerce kind v
    let os ← coerceItems kind vs
    pure (o :: os)

def coerceList (kind : FieldKind) : Json → Except OperandFault (List Operand)
  | .arr vs => coerceItems kind vs
  | _ => .error .notList

/-- The operand of an operator that takes one value. Only a plain field takes a list for one. -/
def coerceSingle (kind : FieldKind) : Json → Except OperandFault Operand
  | .arr vs => if kind = .plain then .ok (.json (.arr vs)) else .error .notSingle
  | v => coerce kind v

end Clientele.Filter
