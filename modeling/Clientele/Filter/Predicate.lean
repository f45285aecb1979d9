import Clientele.Filter.Operand
import Clientele.Text.Fold

/-!
Conditions on documents. A check passes or fails on one value; a condition on a field asks whether
some candidate passes, or none. The candidates are the stored value and, if it is a list, its
items.
-/
set_option autoImplicit false

namespace Clientele.Filter

structure Pattern where
  source : String
  ignoreCase : Bool
  deriving DecidableEq, Repr

namespace Pattern

def occursIn (p : Pattern) (s : String) : Bool :=
  if p.ignoreCase then
    Text.occursIn (p.source.toList.map Text.fold) (s.toList.map Text.fold)
  else Text.occursIn p.source.toList s.toList

/-- The characters that have a meaning of their own in a regular expression. -/
def metaCharacters : List Char :=
  ['\\', '.', '+', '*', '?', '(', ')', '|', '[', ']', '\x7b', '\x7d', '^', '$', '#', '&', '-', '~']

def expression (p : Pattern) : String :=
  .ofList (p.source.toList.flatMap fun c => if metaCharacters.contains c then ['\\', c] else [c])

def toJson (p : Pattern) : Json :=
  .obj (("$regex", .str p.expression) :: if p.ignoreCase then [("$options", .str "i")] else [])

end Pattern

inductive Check where
  | eq (o : Operand)
  | gt (o : Operand)
  | gte (o : Operand)
  | lt (o : Operand)
  | lte (o : Operand)
  | like (p : Pattern)
  | oneOf (os : List Operand)
  | within (least most : Operand)

def isAtLeast : Option Ordering → Bool
  | some .gt | some .eq => true
  | _ => false

def isAtMost : Option Ordering → Bool
  | some .lt | some .eq => true
  | _ => false

namespace Check

def passes : Check → Json → Bool
  | eq o, v => o.compareStored? v == some .eq
  | gt o, v => o.compareStored? v == some .gt
  | gte o, v => isAtLeast (o.compareStored? v)
  | lt o, v => o.compareStored? v == some .lt
  | lte o, v => isAtMost (o.compareStored? v)
  | like p, .str s => p.occursIn s
  | like _, _ => false
  | oneOf os, v => os.any fun o => o.compareStored? v == some .eq
  | within least most, v => isAtLeast (least.compareStored? v) && isAtMost (most.compareStored? v)

def toFields : Check → Fields
  | eq o => [("$eq", o.toJson)]
  | gt o => [("$gt", o.toJson)]
  | gte o => [("$gte", o.toJson)]
  | lt o => [("$lt", o.toJson)]
  | lte o => [("$lte", o.toJson)]
  | like p => p.toJson.fields?.getD []
  | oneOf os => [("$in", .arr (os.map Operand.toJson))]
  | within least most => [("$gte", least.toJson), ("$lte", most.toJson)]

end Check

inductive Condition where
  | present (expected : Bool)
  | some (c : Check)
  /-- No candidate passes, be it that there is none. -/
  | none (c : Check)

def candidates : Option Json → List Json
  | Option.none => []
  | Option.some (.arr xs) => .arr xs :: xs
  | Option.some v => [v]

namespace Condition

def holds : Condition → Option Json → Bool
  | present expected, stored => stored.isSome == expected
  | some c, stored => (candidates stored).any c.passes
  | none c, stored => !(candidates stored).any c.passes

def toJson : Condition → Json
  | present expected => .obj [("$exists", .bool expected)]
  | some c => .obj c.toFields
  | none (.eq o) => .obj [("$ne", o.toJson)]
  | none (.oneOf os) => .obj [("$nin", .arr (os.map Operand.toJson))]
  | none c => .obj [("$not", .obj c.toFields)]

end Condition

inductive Predicate where
  | always
  | all (ps : List Predicate)
  | any (ps : List Predicate)
  | field (path : Path) (c : Condition)

namespace Predicate

def isAlways : Predicate → Bool
  | always => true
  | _ => false

mutual

def holds (doc : Json) : Predicate → Bool
  | always => true
  | all ps => holdsAll doc ps
  | any ps => holdsAny doc ps
  | field path c => c.holds (doc.at? path)

def holdsAll (doc : Json) : List Predicate → Bool
  | [] => true
  | p :: ps => holds doc p && holdsAll doc ps

def holdsAny (doc : Json) : List Predicate → Bool
  | [] => false
  | p :: ps => holds doc p || holdsAny doc ps

end

mutual

def toJson : Predicate → Json
  | always => .obj []
  | all ps => .obj [("$and", .arr (toJsonAll ps))]
  | any ps => .obj [("$or", .arr (toJsonAll ps))]
  | field path c => .obj [(path.text, c.toJson)]

def toJsonAll : List Predicate → List Json
  | [] => []
  | p :: ps => toJson p :: toJsonAll ps

end

end Predicate

end Clientele.Filter
