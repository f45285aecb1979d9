import Std.Data.TreeMap
import Clientele.Identifier
import Clientele.Document.Path

/-!
A collection holds its documents in the order in which they came, and knows the position of each
by the identifier under its primary key.
-/
set_option autoImplicit false

namespace Clientele

instance : Ord Identifier := ⟨Identifier.compare⟩

namespace Store

def documentId? (doc : Fields) : Option Identifier :=
  (doc.get? Path.primaryKey).bind Identifier.ofJson?

inductive InsertError where
  | notObject (collection : String)
  | noIdentifier (collection : String)
  | duplicate (collection : String) (id : Identifier)
  deriving DecidableEq

def InsertError.code : InsertError → String
  | .notObject _ => "CRM_STORE_INVALID_DOCUMENT"
  | .noIdentifier _ => "CRM_STORE_MISSING_KEY"
  | .duplicate .. => "CRM_STORE_DUPLICATE_KEY"

def InsertError.message : InsertError → String
  | .notObject name => s!"invalid document: documents in '{name}' must be JSON objects"
  | .noIdentifier name => s!"document in '{name}' has no valid _id"
  | .duplicate name id => s!"duplicate _id {id.text} in '{name}'"

structure Collection where
  documents : List Fields
  positions : Std.TreeMap Identifier Nat

namespace Collection

def empty : Collection := ⟨[], .empty⟩

def rows (c : Collection) : List Json := c.documents.map .obj

def insert (c : Collection) (name : String) (doc : Json) : Except InsertError Collection :=
  match doc with
  | .obj fields =>
    match documentId? fields with
    | none => .error (.noIdentifier name)
    | some id =>
      if c.positions.contains id then .error (.duplicate name id)
      else .ok ⟨c.documents ++ [fields], c.positions.insert id c.documents.length⟩
  | _ => .error (.notObject name)

def get? (c : Collection) (id : Identifier) : Option Fields :=
  c.positions[id]?.bind fun i => c.documents[i]?

/-- Writes the fields of a patch over a document, its primary key excepted. -/
def patched (doc patch : Fields) : Fields :=
  doc.overlay (patch.filter (·.1 ≠ Path.primaryKey))

def update (c : Collection) (id : Identifier) (patch : Fields) : Option (Fields × Collection) :=
  c.positions[id]?.bind fun i => c.documents[i]?.map fun doc =>
    (patched doc patch, { c with documents := c.documents.set i (patched doc patch) })

/-- Takes a document out; those behind it move up by one. -/
def delete (c : Collection) (id : Identifier) : Option (Fields × Collection) :=
  c.positions[id]?.bind fun i => c.documents[i]?.map fun doc =>
    (doc, ⟨c.documents.eraseIdx i, (c.positions.erase id).map fun _ j => if i < j then j - 1 else j⟩)

end Collection

end Store

end Clientele
