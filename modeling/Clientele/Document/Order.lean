import Clientele.Json.Value

/-!
Two orders of values. The order for sorting puts any two values in place, by kind first and within
a kind by value; all objects are alike in it. The order for conditions compares within one kind
only, and lists and objects for equality only.
-/
set_option autoImplicit false

namespace Clientele.Json

def rank : Json → Nat
  | .null => 0
  | .bool _ => 1
  | .num _ => 2
  | .str _ => 3
  | .arr _ => 4
  | .obj _ => 5

mutual

def compare : Json → Json → Ordering
  | .bool a, .bool b => Ord.compare a b
  | .num a, .num b => a.compare b
  | .str a, .str b => Ord.compare a b
  | .arr xs, .arr ys => compareItems xs ys
  | a, b => Ord.compare a.rank b.rank

/-- Lists are compared item by item, and a beginning comes before the whole. -/
def compareItems : List Json → List Json → Ordering
  | [], [] => .eq
  | [], _ :: _ => .lt
  | _ :: _, [] => .gt
  | x :: xs, y :: ys => (compare x y).then (compareItems xs ys)

end

def compareOptional : Option Json → Option Json → Ordering
  | none, none => .eq
  | none, some _ => .lt
  | some _, none => .gt
  | some a, some b => compare a b

/-- The order for conditions. -/
def compareSameKind? : Json → Json → Option Ordering
  | .null, .null => some .eq
  | .bool a, .bool b => some (compare (.bool a) (.bool b))
  | .num a, .num b => some (compare (.num a) (.num b))
  | .str a, .str b => some (compare (.str a) (.str b))
  | .arr xs, .arr ys => if same (.arr xs) (.arr ys) then some .eq else none
  | .obj fs, .obj gs => if same (.obj fs) (.obj gs) then some .eq else none
  | _, _ => none

end Clientele.Json
