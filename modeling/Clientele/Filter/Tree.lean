import Clientele.Filter.Operator

/-!
A filter request as a tree. A leaf holds a field, an operator and the operand as it was sent; a
combination holds what it combines.
-/
set_option autoImplicit false

namespace Clientele.Filter

inductive Tree where
  | leaf (field : Path) (operator : Operator) (operand : Json)
  | node (c : Connective) (children : List Tree)

namespace Tree

def combine (c : Connective) : List Tree → Option Tree
  | [] => none
  | ts => some (.node c ts)

/-- The conjunction of the trees; a single tree stays as it is. -/
def conjunction : List Tree → Option Tree
  | [] => none
  | [t] => some t
  | ts => some (.node .all ts)

mutual

def leafCount : Tree → Nat
  | leaf .. => 1
  | node _ ts => leafCountAll ts

def leafCountAll : List Tree → Nat
  | [] => 0
  | t :: ts => leafCount t + leafCountAll ts

end

mutual

def toJson : Tree → Json
  | leaf field operator operand =>
    .obj [("field", .str field.text), ("operator", .str operator.name), ("value", operand)]
  | node c ts => .obj [(c.name, .arr (toJsonAll ts))]

def toJsonAll : List Tree → List Json
  | [] => []
  | t :: ts => toJson t :: toJsonAll ts

end

end Tree

end Clientele.Filter
