import Clientele.Filter.Predicate
import Clientele.Query.Sort
import Clientele.Query.Window

/-!
Stages of a pipeline. A lookup joins the documents of another collection that share a key, a
derived field counts or sums what was joined, and the other stages choose, sort and cut.
-/
set_option autoImplicit false

namespace Clientele.Query

inductive Cardinality where
  | one | many
  deriving DecidableEq, Repr

def Cardinality.name : Cardinality → String
  | one => "one"
  | many => "many"

def Cardinality.ofJson? (v : Json) : Option Cardinality :=
  v.caseName?.bind fun s =>
    if s = "one" then some .one else if s = "many" then some .many else none

structure Lookup where
  source : String
  localField : Path
  foreignField : Path
  target : Path
  cardinality : Cardinality
  deriving DecidableEq, Repr

namespace Lookup

def ofJson? (v : Json) : Option Lookup :=
  match v.slots? ["from", "localField", "foreignField", "as", "cardinality"] with
  | some [some source, some localField, some foreignField, some target, some cardinality] => do
    let source ← source.text?
    let localField ← localField.text?
    let foreignField ← foreignField.text?
    let target ← target.text?
    let cardinality ← Cardinality.ofJson? cardinality
    pure ⟨source, .ofText localField, .ofText foreignField, .ofText target, cardinality⟩
  | _ => none

def joins (l : Lookup) (keys : List Json) (foreign : Json) : Bool :=
  (foreign.keysAt l.foreignField).any fun f => keys.any fun k => k.compare f == .eq

/-- The foreign documents that share a key with the document, in their order. -/
def joined (l : Lookup) (foreign : List Json) (doc : Json) : List Json :=
  foreign.filter (l.joins (doc.keysAt l.localField))

def value (l : Lookup) (joined : List Json) : Json :=
  match l.cardinality with
  | .one => joined.headD .null
  | .many => .arr joined

def apply (l : Lookup) (foreign : List Json) (doc : Json) : Json :=
  doc.setAt l.target (l.value (l.joined foreign doc))

end Lookup

inductive Derived where
  | size (source target : Path)
  | sum (source field target : Path)
  deriving DecidableEq, Repr

namespace Derived

def ofJson? (v : Json) : Option Derived := do
  let (kind, rest) ← v.tagged? "op"
  let kind ← kind.text?
  if kind = "size" then
    match rest.slots? ["source", "target"] with
    | some [some source, some target] => do
      let source ← source.text?
      let target ← target.text?
      pure (.size (.ofText source) (.ofText target))
    | _ => none
  else if kind = "sum" then
    match rest.slots? ["source", "field", "target"] with
    | some [some source, some field, some target] => do
      let source ← source.text?
      let field ← field.text?
      let target ← target.text?
      pure (.sum (.ofText source) (.ofText field) (.ofText target))
    | _ => none
  else none

/-- A running sum: exact while all addends are 64-bit integers and the sum is one, and as a double
in any case. -/
structure Sum where
  exact : Option Int
  approximate : Float

def Sum.zero : Sum := ⟨some 0, 0⟩

def inInt64 (n : Int) : Bool := -0x8000000000000000 ≤ n && n < 0x8000000000000000

def Sum.add (s : Sum) (n : Number) : Sum :=
  ⟨match s.exact, n.toInt64? with
    | some a, some b => if inInt64 (a + b) then some (a + b) else none
    | _, _ => none, s.approximate + n.toFloat⟩

def Sum.toJson (s : Sum) : Json :=
  Json.orNull ((match s.exact with
    | some n => Number.ofInt? n
    | none => Number.ofFloat? s.approximate).map .num)

def numbersAt (field : Path) (docs : List Json) : List Number :=
  docs.filterMap fun d =>
    match d.at? field with
    | some (.num n) => some n
    | _ => none

def sumOf (field : Path) (docs : List Json) : Json :=
  ((numbersAt field docs).foldl Sum.add Sum.zero).toJson

/-- The list at a path; anything else counts as an empty one. -/
def listAt (doc : Json) (source : Path) : List Json := ((doc.at? source).bind Json.items?).getD []

def apply (doc : Json) : Derived → Json
  | size source target => doc.setAt target (.ofNat (listAt doc source).length)
  | sum source field target => doc.setAt target (sumOf field (listAt doc source))

end Derived

inductive Stage where
  | lookup (l : Lookup)
  | derived (d : Derived)
  | filter (p : Filter.Predicate)
  | sort (keys : List SortKey)
  | limit (n : Nat)
  | skip (n : Nat)

namespace Stage

def isRelation : Stage → Bool
  | lookup _ | derived _ => true
  | _ => false

/-- Runs a stage. Lookups read the documents of a collection as `stored` gives them. -/
def apply (stored : String → List Json) (docs : List Json) : Stage → List Json
  | lookup l => docs.map (l.apply (stored l.source))
  | derived d => docs.map (d.apply ·)
  | filter p => docs.filter (p.holds ·)
  | sort keys => sortBy keys docs
  | limit n => docs.take n
  | skip n => docs.drop n

def derivedJson (target : Path) (operator source : String) : Json :=
  .obj [("$addFields", .obj [(target.text, .obj [(operator, .str ("$" ++ source))])])]

def toJson : Stage → Json
  | lookup l =>
    .obj [("$lookup", .obj [("from", .str l.source), ("localField", .str l.localField.text),
      ("foreignField", .str l.foreignField.text), ("as", .str l.target.text),
      ("cardinality", .str l.cardinality.name)])]
  | derived (.size source target) => derivedJson target "$size" source.text
  | derived (.sum source field target) =>
    derivedJson target "$sum" (source.text ++ "." ++ field.text)
  | filter p => .obj [("$match", p.toJson)]
  | sort keys => .obj [("$sort", sortJson keys)]
  | limit n => .obj [("$limit", .ofNat n)]
  | skip n => .obj [("$skip", .ofNat n)]

end Stage

def Window.stages (w : Window) : List Stage :=
  (match w.stop with
    | none => []
    | some stop => [.limit stop]) ++ if 0 < w.offset then [.skip w.offset] else []

abbrev Pipeline := List Stage

def Pipeline.run (stored : String → List Json) (p : Pipeline) (docs : List Json) : List Json :=
  p.foldl (Stage.apply stored) docs

def Pipeline.toJson (p : Pipeline) : Json := .arr (p.map Stage.toJson)

end Clientele.Query
