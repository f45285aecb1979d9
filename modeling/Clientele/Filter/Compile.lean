import Clientele.Filter.Predicate
import Clientele.Filter.Tree

/-!
A filter tree becomes a predicate. Leaves that ask for nothing drop out, and so does a combination
of which nothing remains; a combination of one predicate is that predicate.
-/
set_option autoImplicit false

namespace Clientele.Filter

/-- The pattern of an operand for a part of a string: the string without its percent signs. Nothing
is left to look for where it is empty. -/
def patternOf (ignoreCase : Bool) : Json → Except OperandFault (Option Pattern)
  | .str s =>
    let source := s.toList.filter (· ≠ '%')
    .ok (if source.isEmpty then none else some ⟨.ofList source, ignoreCase⟩)
  | _ => .error .notText

def hasBlankBound : Json → Bool
  | .arr [a, b] => isBlank a || isBlank b
  | _ => false

def orderedBounds (kind : FieldKind) (v : Json) : Except OperandFault (Operand × Operand) := do
  match ← coerceList kind v with
  | [a, b] =>
    match a.compare? b with
    | some .gt => pure (b, a)
    | some _ => pure (a, b)
    | none => throw .incomparableBounds
  | os => throw (.boundCount os.length)

def rangeOf (kind : FieldKind) (v : Json) : Except OperandFault (Option Check) :=
  if hasBlankBound v then .ok none
  else (orderedBounds kind v).map fun (least, most) => some (.within least most)

def flagOf : Json → Except OperandFault Bool
  | .bool b => .ok b
  | _ => .error .notBoolean

/-- The condition that an operator and an operand put on a field, if they put one. -/
def conditionOf (kind : FieldKind) (op : Operator) (v : Json) :
    Except OperandFault (Option Condition) :=
  match op with
  | .is => (flagOf v).map fun b => some (.present b)
  | .isNot => (flagOf v).map fun b => some (.present !b)
  | .eq => (coerceSingle kind v).map fun o => some (.some (.eq o))
  | .neq => (coerceSingle kind v).map fun o => some (.none (.eq o))
  | .gt => (coerceSingle kind v).map fun o => some (.some (.gt o))
  | .gte => (coerceSingle kind v).map fun o => some (.some (.gte o))
  | .lt => (coerceSingle kind v).map fun o => some (.some (.lt o))
  | .lte => (coerceSingle kind v).map fun o => some (.some (.lte o))
  | .like => (patternOf false v).map fun p => p.map fun p => .some (.like p)
  | .notLike => (patternOf false v).map fun p => p.map fun p => .none (.like p)
  | .iLike => (patternOf true v).map fun p => p.map fun p => .some (.like p)
  | .notILike => (patternOf true v).map fun p => p.map fun p => .none (.like p)
  | .oneOf => (coerceList kind v).map fun os => some (.some (.oneOf os))
  | .noneOf => (coerceList kind v).map fun os => some (.none (.oneOf os))
  | .between => (rangeOf kind v).map fun c => c.map .some
  | .notBetween => (rangeOf kind v).map fun c => c.map .none

def compileLeaf (field : Path) (op : Operator) (v : Json) : Except Error Predicate :=
  if isBlank v then .ok .always
  else
    let path := field.normalize
    match conditionOf (fieldKind path) op v with
    | .error fault => .error (.operand path op.name fault)
    | .ok none => .ok .always
    | .ok (some c) => .ok (.field path c)

def Predicate.combine (c : Connective) (ps : List Predicate) : Predicate :=
  match ps.filter (!·.isAlways) with
  | [] => .always
  | [p] => p
  | ps =>
    match c with
    | .all => .all ps
    | .any => .any ps

mutual

def compile : Tree → Except Error Predicate
  | .leaf field op v => compileLeaf field op v
  | .node c ts => (compileAll ts).map (Predicate.combine c)

def compileAll : List Tree → Except Error (List Predicate)
  | [] => .ok []
  | t :: ts => do
    let p ← compile t
    let ps ← compileAll ts
    pure (p :: ps)

end

def compileOptional : Option Tree → Except Error Predicate
  | none => .ok .always
  | some t => compile t

end Clientele.Filter
