import Clientele.Audit.Change
import Clientele.Identifier
import Clientele.Time.Stamp

/-!
Audit records: who did what to which document, and when. Changes may be added later, which moves
the second of the two stamps.
-/
set_option autoImplicit false

namespace Clientele.Audit

inductive Action where
  | create | update
  deriving DecidableEq, Repr

def Action.name : Action → String
  | create => "CREATE"
  | update => "UPDATE"

def Action.ofName? (s : String) : Option Action :=
  if s = "CREATE" then some .create else if s = "UPDATE" then some .update else none

def Action.ofJson? (v : Json) : Option Action := v.caseName?.bind Action.ofName?

def Action.ofJournal? (v : Json) : Option Action := v.looseCaseName?.bind Action.ofName?

structure Record where
  id : Identifier
  action : Action
  targetEntity : String
  targetId : Identifier
  changes : List Change
  userId : Identifier
  createdAt : Time.Instant
  updatedAt : Time.Instant
  deriving DecidableEq

namespace Record

def amend (r : Record) (c : Change) (time : Time.Instant) : Record :=
  { r with changes := r.changes ++ [c], updatedAt := time }

def toFields (r : Record) : Fields :=
  [("id", r.id.toJson), ("action", .str r.action.name), ("targetEntity", .str r.targetEntity),
    ("targetId", r.targetId.toJson), ("changes", .arr (r.changes.map Change.toJson)),
    ("userId", r.userId.toJson), ("createdAt", .str r.createdAt.millis),
    ("updatedAt", .str r.updatedAt.millis)]

def toJson (r : Record) : Json := .obj r.toFields

def stamp? (v : Json) : Option Time.Instant := v.text?.bind Time.strict?

def ofJsonBy? (action? : Json → Option Action) (v : Json) : Option Record :=
  match v.slots? ["id", "action", "targetEntity", "targetId", "changes", "userId", "createdAt",
    "updatedAt"] with
  | some [some id, some action, some targetEntity, some targetId, some changes, some userId,
      some createdAt, some updatedAt] => do
    let id ← Identifier.ofJson? id
    let action ← action? action
    let targetEntity ← targetEntity.text?
    let targetId ← Identifier.ofJson? targetId
    let changes ← changes.listOf? Change.ofJson?
    let userId ← Identifier.ofJson? userId
    let createdAt ← stamp? createdAt
    let updatedAt ← stamp? updatedAt
    pure ⟨id, action, targetEntity, targetId, changes, userId, createdAt, updatedAt⟩
  | _ => none

def ofJson? (v : Json) : Option Record := ofJsonBy? Action.ofJson? v

def ofJournal? (v : Json) : Option Record := ofJsonBy? Action.ofJournal? v

end Record

def modifyLast {α : Type} (p : α → Bool) (f : α → α) : List α → Option (List α)
  | [] => none
  | x :: xs =>
    match modifyLast p f xs with
    | some ys => some (x :: ys)
    | none => if p x then some (f x :: xs) else none

def lookUp (rs : List Record) (id : Identifier) : Option Record :=
  rs.reverse.find? fun r => r.id == id

def amendIn (rs : List Record) (id : Identifier) (c : Change) (time : Time.Instant) :
    Option (List Record) :=
  modifyLast (fun r => r.id == id) (fun r => r.amend c time) rs

end Clientele.Audit
