import Clientele.Audit.Record

/-!
Views of the trail: the history of one document, oldest first, and the activity feed, newest first.
-/
set_option autoImplicit false

namespace Clientele.Audit

def history (rs : List Record) (targetEntity : String) (targetId : Identifier) : List Record :=
  rs.filter fun r => r.targetEntity == targetEntity && r.targetId == targetId

structure FeedQuery where
  targetEntity : Option String
  userId : Option Identifier
  limit : Option Nat

namespace FeedQuery

def everything : FeedQuery := ⟨none, none, none⟩

def ofJson? (v : Json) : Option FeedQuery :=
  match v.slots? ["targetEntity", "userId", "limit"] with
  | some [targetEntity, userId, limit] => do
    let targetEntity ← Json.optional? Json.text? targetEntity
    let userId ← Json.optional? Identifier.ofJson? userId
    let limit ← Json.optional? Json.nat? limit
    pure ⟨targetEntity, userId, limit⟩
  | _ => none

def admits (q : FeedQuery) (r : Record) : Bool :=
  q.targetEntity.all (· == r.targetEntity) && q.userId.all (· == r.userId)

end FeedQuery

/-- Newest first, and of records of one instant the one that came last first. -/
def recent (rs : List Record) (q : FeedQuery) : List Record :=
  let sorted := (rs.reverse.filter q.admits).mergeSort fun a b =>
    b.createdAt.compare a.createdAt != .gt
  match q.limit with
  | none => sorted
  | some n => sorted.take n

end Clientele.Audit
