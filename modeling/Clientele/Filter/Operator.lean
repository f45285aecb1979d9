import Clientele.Document.Path
import Clientele.Json.Printer

/-!
The operators of a filter and their names, and the ways in which a filter can be refused, with
their codes and wording.
-/
set_option autoImplicit false

namespace Clientele.Filter

inductive Operator where
  | is | isNot | eq | neq | gt | gte | lt | lte
  | like | notLike | iLike | notILike
  | oneOf | noneOf | between | notBetween
  deriving DecidableEq, Repr

namespace Operator

def name : Operator → String
  | is => "is"
  | isNot => "isNot"
  | eq => "eq"
  | neq => "neq"
  | gt => "gt"
  | gte => "gte"
  | lt => "lt"
  | lte => "lte"
  | like => "like"
  | notLike => "notLike"
  | iLike => "iLike"
  | notILike => "notILike"
  | oneOf => "in"
  | noneOf => "notIn"
  | between => "between"
  | notBetween => "notBetween"

def all : List Operator :=
  [is, isNot, eq, neq, gt, gte, lt, lte, like, notLike, iLike, notILike, oneOf, noneOf, between,
    notBetween]

def ofName? (s : String) : Option Operator := all.find? (·.name == s)

def isPattern : Operator → Bool
  | like | notLike | iLike | notILike => true
  | _ => false

end Operator

inductive Connective where
  | all | any
  deriving DecidableEq, Repr

def Connective.name : Connective → String
  | all => "and"
  | any => "or"

def Connective.ofName? (s : String) : Option Connective :=
  if s = "and" then some .all else if s = "or" then some .any else none

inductive OperandFault where
  | notIdentifier (v : Json)
  | notDate (v : Json)
  | notList
  | notSingle
  | notBoolean
  | notText
  | boundCount (n : Nat)
  | incomparableBounds

def OperandFault.message : OperandFault → String
  | .notIdentifier v => s!"{v.compact} is not a valid identifier"
  | .notDate v => s!"{v.compact} is not a valid date"
  | .notList => "expected a list"
  | .notSingle => "expected a single value"
  | .notBoolean => "expected a boolean"
  | .notText => "expected a string"
  | .boundCount n => s!"expected exactly two bounds, got {n}"
  | .incomparableBounds => "bounds are not comparable"

inductive Error where
  | notObject (kind : String)
  | notList (c : Connective)
  | notOperators (field : Path)
  | unsupported (field : Path) (operator : String)
  | operand (field : Path) (operator : String) (fault : OperandFault)

def Error.code : Error → String
  | .notObject _ | .notList _ | .notOperators _ => "CRM_FILTER_INVALID"
  | .unsupported .. => "CRM_FILTER_INVALID_OPERATOR"
  | .operand .. => "CRM_FILTER_INVALID_VALUE"

def Error.message : Error → String
  | .notObject kind => s!"Invalid filter: expected an object, got {kind}"
  | .notList c => s!"Invalid filter: '{c.name}' must map to a list of filters"
  | .notOperators field => s!"Invalid filter: field '{field.text}' must map to an operator object"
  | .unsupported field operator => s!"Unsupported operator '{operator}' on field '{field.text}'"
  | .operand field operator fault => s!"Invalid value for {operator} on '{field.text}': {fault.message}"

end Clientele.Filter
