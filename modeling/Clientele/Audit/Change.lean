import Clientele.Json.Record
import Clientele.Json.Printer

/-!
Field changes. A value enters the trail as text, and null enters it as nothing. What a new document
says is told field by field; a patch is told against the document it is applied to, and a list of
objects item by item.
-/
set_option autoImplicit false

namespace Clientele.Audit

structure Change where
  field : String
  before : Option String
  after : Option String
  deriving DecidableEq, Repr

namespace Change

def toJson (c : Change) : Json :=
  .obj (("field", .str c.field) :: (Json.optionalField "from" (c.before.map .str) ++
    Json.optionalField "to" (c.after.map .str)))

def ofJson? (v : Json) : Option Change :=
  match v.slots? ["field", "from", "to"] with
  | some [some field, before, after] => do
    let field ← field.text?
    let before ← Json.optional? Json.text? before
    let after ← Json.optional? Json.text? after
    pure ⟨field, before, after⟩
  | _ => none

end Change

def isScalar : Json → Bool
  | .arr _ | .obj _ => false
  | _ => true

def renderScalar : Json → Option String
  | .null => none
  | .str s => some s
  | v => some v.compact

/-- The text of a value: strings as they are, lists of scalars with commas between their texts,
everything else as a document. -/
def render : Json → Option String
  | .arr items =>
    if items.all isScalar then some (",".intercalate (items.filterMap renderScalar))
    else some (Json.arr items).compact
  | v => renderScalar v

/-- Which fields may be told; without a list all of them. -/
abbrev PublicFields := Option (List String)

def isPublic (ps : PublicFields) (field : String) : Bool :=
  match ps with
  | none => true
  | some fields => fields.contains field

def changesOnCreate (ps : PublicFields) (values : Fields) : List Change :=
  (values.filter fun f => isPublic ps f.1).map fun f => ⟨f.1, none, render f.2⟩

def implied (defaults values : Fields) : Fields := defaults.filter fun f => !values.has f.1

def changesWithDefaults (ps : PublicFields) (defaults values : Fields) : List Change :=
  changesOnCreate ps (implied defaults values) ++ changesOnCreate ps values

/-- The objects of a list that has at least one item and nothing but objects. -/
def recordList? : Json → Option (List Fields)
  | .arr [] => none
  | .arr items => items.mapM Json.fields?
  | _ => none

/-- The changes of one object in a list, against the item that stood in its place. -/
def itemChanges (field : String) (index : Nat) (prior : Option Json) (item : Fields) : List Change :=
  item.map fun f =>
    ⟨s!"{field}.{index}.{f.1}",
      match prior with
      | none => some ""
      | some p => (p.get? f.1).bind render,
      render f.2⟩

def fieldChanges (old : Json) (field : String) (value : Json) : List Change :=
  let previous := old.get? field
  match recordList? value with
  | some records =>
    let prior := (previous.bind Json.items?).getD []
    (records.zipIdx.map fun (item, index) => itemChanges field index prior[index]? item).flatten
  | none => [⟨field, previous.bind render, render value⟩]

/-- The changes of a patch against the stored document; without one they are those of a new
document. -/
def changesOnUpdate (ps : PublicFields) (old : Option Json) (patch : Fields) : List Change :=
  match old with
  | none => changesOnCreate ps patch
  | some old => (patch.filter fun f => isPublic ps f.1).flatMap fun f => fieldChanges old f.1 f.2

end Clientele.Audit
