import Mathlib.Data.List.Infix
import Clientele.Filter.Compile
import Clientele.Filter.Wire

/-!
What a filter says of a document, read off the filter as it was sent. A filter sets no condition, or
a condition that holds or fails.
-/
set_option autoImplicit false

namespace Clientele.Filter

/-- What is said of a document; nothing where no condition is set. -/
abbrev Verdict := Option Bool

def Verdict.said (vs : List Verdict) : List Bool := vs.filterMap id

/-- Combines what is said. What says nothing is left out, and nothing is said where nothing is
left. -/
def Verdict.combine (c : Connective) (vs : List Verdict) : Verdict :=
  match said vs with
  | [] => none
  | bs =>
    match c with
    | .all => some (bs.all id)
    | .any => some (bs.any id)

/-- Operands that set no condition. -/
def isNothing : Json → Bool
  | .null | .str "" | .arr [] | .arr [.str ""] => true
  | _ => false

def isPercents : Json → Bool
  | .str s => s.toList.all (· == '%')
  | _ => false

def hasOpenEnd : Json → Bool
  | .arr [a, b] => isNothing a || isNothing b
  | _ => false

namespace Operator

def isRange : Operator → Bool
  | between | notBetween => true
  | _ => false

def isNegated : Operator → Bool
  | neq | notLike | notILike | noneOf | notBetween => true
  | _ => false

def setsNothing (op : Operator) (operand : Json) : Bool :=
  isNothing operand || op.isPattern && isPercents operand || op.isRange && hasOpenEnd operand

end Operator

/-- How a stored value stands to an operand, where the two can be compared at such a field. -/
def standing (kind : FieldKind) (operand stored : Json) : Option Ordering :=
  match kind with
  | .identifier => do
    let a ← Identifier.ofJson? stored
    let b ← Identifier.ofJson? operand
    pure (a.compare b)
  | .date => do
    let a ← dateOf? stored
    let b ← dateOf? operand
    pure (a.compare b)
  | .plain => Json.compareSameKind? stored operand

/-- Whether a stored string has the string between the percent signs of an operand as a part, with
each character read through `f`. -/
def hasPart (f : Char → Char) : Json → Json → Bool
  | .str operand, .str stored =>
    (operand.toList.filter (· ≠ '%')).map f <:+: stored.toList.map f
  | _, _ => false

def inOrder (kind : FieldKind) (a b : Json) : Json × Json :=
  if standing kind b a = some .gt then (b, a) else (a, b)

def isBetween (kind : FieldKind) (bounds : Json × Json) (stored : Json) : Bool :=
  isAtLeast (standing kind bounds.1 stored) && isAtMost (standing kind bounds.2 stored)

/-- What an operator asks of one value, or asks no value to be. -/
def Operator.test (kind : FieldKind) (operand stored : Json) : Operator → Bool
  | is | isNot => false
  | eq | neq => standing kind operand stored == some .eq
  | gt => standing kind operand stored == some .gt
  | gte => isAtLeast (standing kind operand stored)
  | lt => standing kind operand stored == some .lt
  | lte => isAtMost (standing kind operand stored)
  | like | notLike => hasPart id operand stored
  | iLike | notILike => hasPart Text.fold operand stored
  | oneOf | noneOf => (operand.items?.getD []).any fun o => standing kind o stored == some .eq
  | between | notBetween =>
    match operand with
    | .arr [a, b] => isBetween kind (inOrder kind a b) stored
    | _ => false

/-- Whether what is stored passes a test, as a whole or by one of its items. -/
def somePasses (test : Json → Bool) : Option Json → Bool
  | none => false
  | some (.arr xs) => test (.arr xs) || xs.any test
  | some v => test v

/-- Whether an operator is content with what is stored, be it nothing. -/
def Operator.accepts (kind : FieldKind) (operand : Json) (stored : Option Json) (op : Operator) :
    Bool :=
  match op, operand with
  | is, .bool b => stored.isSome == b
  | isNot, .bool b => stored.isSome == !b
  | op, operand =>
    if op.isNegated then !somePasses (op.test kind operand) stored
    else somePasses (op.test kind operand) stored

def operatorVerdict (doc : Json) (field : Path) (op : Operator) (operand : Json) : Verdict :=
  if op.setsNothing operand then none
  else some (op.accepts (fieldKind field.normalize) operand (doc.at? field.normalize))

mutual

/-- What the operators of a field and of the fields below it say. -/
def fieldVerdict (doc : Json) (field : Path) : Json → Verdict
  | .obj entries => .combine .all (operatorVerdicts doc field entries)
  | _ => none

def operatorVerdicts (doc : Json) (field : Path) : List (String × Json) → List Verdict
  | [] => []
  | (key, operand) :: rest =>
    (match Operator.ofName? key with
      | some op => operatorVerdict doc field op operand
      | none => fieldVerdict doc (field.under key) operand) :: operatorVerdicts doc field rest

end

mutual

/-- What a filter says of a document. -/
def verdict (doc : Json) : Json → Verdict
  | .obj entries => .combine .all (entryVerdicts doc entries)
  | _ => none

def entryVerdicts (doc : Json) : List (String × Json) → List Verdict
  | [] => []
  | (key, v) :: rest =>
    (match Connective.ofName? key with
      | some c => listVerdict doc c v
      | none => fieldVerdict doc (Path.ofText key) v) :: entryVerdicts doc rest

def listVerdict (doc : Json) (c : Connective) : Json → Verdict
  | .arr items => .combine c (itemVerdicts doc items)
  | _ => none

def itemVerdicts (doc : Json) : List Json → List Verdict
  | [] => []
  | v :: vs => verdict doc v :: itemVerdicts doc vs

end

end Clientele.Filter
