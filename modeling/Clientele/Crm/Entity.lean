import Clientele.Query.Stage
import Clientele.Audit.Change

/-!
Kinds of entities: where their documents are kept, what is joined to them when they are read, and
how they are written and audited.
-/
set_option autoImplicit false

namespace Clientele.Crm

structure Entity where
  name : String
  auditName : String
  collection : String
  relations : Query.Pipeline
  publicFields : Audit.PublicFields
  /-- Values that a new document takes where it has none of its own. -/
  defaults : Fields
  pricing : Bool
  readOnly : Bool

/-- Writes are recorded wherever they are possible. -/
def Entity.audited (e : Entity) : Bool := !e.readOnly

def Entity.toJson (e : Entity) : Json :=
  .obj [("name", .str e.name), ("audit_name", .str e.auditName), ("collection", .str e.collection),
    ("relations", e.relations.toJson),
    ("public_fields", Json.orNull (e.publicFields.map fun fs => .arr (fs.map .str))),
    ("create_defaults", .obj e.defaults), ("pricing", .bool e.pricing),
    ("audited", .bool e.audited), ("read_only", .bool e.readOnly)]

def plainEntity (name auditName collection : String) : Entity :=
  ⟨name, auditName, collection, [], none, [], false, false⟩

def toOne (source localField target : String) : Query.Stage :=
  .lookup ⟨source, .ofText localField, .ofText "_id", .ofText target, .one⟩

/-- The documents that a list of identifiers names. -/
def toMany (source localField target : String) : Query.Stage :=
  .lookup ⟨source, .ofText localField, .ofText "_id", .ofText target, .many⟩

/-- The documents that refer to this one. -/
def fromMany (source foreignField target : String) : Query.Stage :=
  .lookup ⟨source, .ofText "_id", .ofText foreignField, .ofText target, .many⟩

def toUser (localField target : String) : Query.Stage := toOne "users" localField target

def sizeOf (source target : String) : Query.Stage :=
  .derived (.size (.ofText source) (.ofText target))

def sumOf (source field target : String) : Query.Stage :=
  .derived (.sum (.ofText source) (.ofText field) (.ofText target))

end Clientele.Crm
