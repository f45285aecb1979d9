import Clientele.Filter.Tree
import Clientele.Json.Record

/-!
Filters as they are sent. An object is the conjunction of its entries: under `and` and `or` stands
a list of filters, under every other key an object of operators for that field. In an object of
operators a key that is no operator leads on to a field of a related document. Null, empty objects
and empty lists ask for nothing.
-/
set_option autoImplicit false

namespace Clientele.Filter

/-- What becomes of an operator that is not known. -/
inductive Policy where
  | strict
  | lenient
  deriving DecidableEq, Repr

def Policy.name : Policy → String
  | strict => "strict"
  | lenient => "lenient"

def Policy.ofJson? (v : Json) : Option Policy :=
  v.caseName?.bind fun s =>
    if s = "strict" then some .strict else if s = "lenient" then some .lenient else none

structure Ignored where
  field : Path
  operator : String
  deriving DecidableEq, Repr

structure Reading (α : Type) where
  ignored : List Ignored
  outcome : Except Error α

namespace Reading

variable {α β : Type}

def pure (a : α) : Reading α := ⟨[], .ok a⟩

def fail (e : Error) : Reading α := ⟨[], .error e⟩

def bind (r : Reading α) (f : α → Reading β) : Reading β :=
  match r.outcome with
  | .error e => ⟨r.ignored, .error e⟩
  | .ok a => ⟨r.ignored ++ (f a).ignored, (f a).outcome⟩

def map (f : α → β) (r : Reading α) : Reading β := ⟨r.ignored, r.outcome.map f⟩

theorem outcome_bind (r : Reading α) (f : α → Reading β) :
    (r.bind f).outcome = r.outcome.bind fun a => (f a).outcome := by
  unfold bind; cases r.outcome <;> rfl

end Reading

def unknownOperator (policy : Policy) (field : Path) (operator : String) : Reading (List Tree) :=
  match policy with
  | .strict => .fail (.unsupported field operator)
  | .lenient => ⟨[⟨field, operator⟩], .ok []⟩

mutual

def readField (policy : Policy) (field : Path) : Json → Reading (List Tree)
  | .obj entries => readOperators policy field entries
  | _ => .fail (.notOperators field)

def readOperators (policy : Policy) (field : Path) : List (String × Json) → Reading (List Tree)
  | [] => .pure []
  | (key, operand) :: rest =>
    (match Operator.ofName? key with
      | some op => Reading.pure [Tree.leaf field op operand]
      | none =>
        match operand with
        | .obj entries => readOperators policy (field.under key) entries
        | _ => unknownOperator policy field key).bind fun ts =>
      (readOperators policy field rest).map (ts ++ ·)

end

mutual

/-- Reads a filter; nothing is read where it asks for nothing. -/
def read (policy : Policy) : Json → Reading (Option Tree)
  | .null => .pure none
  | .obj entries => (readEntries policy entries).map Tree.conjunction
  | v => .fail (.notObject v.kind)

def readEntries (policy : Policy) : List (String × Json) → Reading (List Tree)
  | [] => .pure []
  | (key, v) :: rest =>
    (match Connective.ofName? key with
      | some c => (readList policy c v).map fun ts => (Tree.combine c ts).toList
      | none => readField policy (Path.ofText key) v).bind fun ts =>
      (readEntries policy rest).map (ts ++ ·)

def readList (policy : Policy) (c : Connective) : Json → Reading (List Tree)
  | .arr items => readItems policy items
  | _ => .fail (.notList c)

def readItems (policy : Policy) : List Json → Reading (List Tree)
  | [] => .pure []
  | v :: vs =>
    (read policy v).bind fun t => (readItems policy vs).map (t.toList ++ ·)

end

end Clientele.Filter
