import Clientele.Audit.Trail
import Clientele.Audit.Feed
import Clientele.Telemetry.Counters
import Clientele.Telemetry.Line

/-!
The book: the documents, the audit trail about them, the counters, the log, and a supply of fresh
identifiers and readings of the clock. Recording a change is counted and reported, whether it
succeeds or not.
-/
set_option autoImplicit false

namespace Clientele.Crm

/-- Fresh identifiers and readings of the clock, and how many of them have been drawn. -/
structure Supply where
  id : Nat → Identifier
  time : Nat → Time.Instant
  idsDrawn : Nat
  timesDrawn : Nat

structure Book where
  store : Store
  trail : Audit.Trail
  counters : Telemetry.Counters
  log : List Telemetry.Entry
  supply : Supply

namespace Book

def freshId (b : Book) : Identifier × Book :=
  (b.supply.id b.supply.idsDrawn,
    { b with supply := { b.supply with idsDrawn := b.supply.idsDrawn + 1 } })

def now (b : Book) : Time.Instant × Book :=
  ((b.supply.time b.supply.timesDrawn).toMillisPrecision,
    { b with supply := { b.supply with timesDrawn := b.supply.timesDrawn + 1 } })

def report (b : Book) (event : Telemetry.Event) (fields : List (String × String)) : Book :=
  { b with log := b.log ++ [⟨event, fields⟩] }

def count (b : Book) (f : Telemetry.Counters → Telemetry.Counters) : Book :=
  { b with counters := f b.counters }

def writeRecord (b : Book) (r : Audit.Record) : Except Audit.Error Unit × Book :=
  let (result, trail, store) := b.trail.insert b.store r
  (result, { b with trail := trail, store := store })

def record (b : Book) (targetEntity : String) (targetId : Identifier) (changes : List Audit.Change)
    (userId : Identifier) (action : Audit.Action) : Except Audit.Error Audit.Record × Book :=
  let (time, b) := b.now
  let (id, b) := b.freshId
  let r : Audit.Record := ⟨id, action, targetEntity, targetId, changes, userId, time, time⟩
  match b.writeRecord r with
  | (.ok (), b) =>
    (.ok r, (b.count fun c => { c with auditRecordsWritten := c.auditRecordsWritten + 1 }).report
      .auditRecorded [("action", action.name), ("audit_id", r.id.text),
        ("changes", toString changes.length), ("target_entity", targetEntity),
        ("target_id", targetId.text)])
  | (.error e, b) =>
    (.error e, (b.count fun c => { c with auditWriteFailures := c.auditWriteFailures + 1 }).report
      .auditWriteFailed [("action", action.name), ("code", e.code), ("reason", e.message),
        ("target_entity", targetEntity), ("target_id", targetId.text)])

def amend (b : Book) (id : Identifier) (change : Audit.Change) :
    Except Audit.Error Audit.Record × Book :=
  let (time, b) := b.now
  let (result, trail, store) := b.trail.appendChange b.store id change time
  let b := { b with trail := trail, store := store }
  match result with
  | .error e => (.error e, b)
  | .ok r =>
    (.ok r, (b.count fun c => { c with auditAmendments := c.auditAmendments + 1 }).report
      .auditAmended [("audit_id", id.text), ("changes", toString r.changes.length)])

def records (b : Book) : Except Audit.Error (List Audit.Record) := b.trail.records b.store

def auditRecord (b : Book) (id : Identifier) : Except Audit.Error (Option Audit.Record) :=
  b.trail.get b.store id

def history (b : Book) (targetEntity : String) (targetId : Identifier) :
    Except Audit.Error (List Audit.Record) :=
  b.records.map fun rs => Audit.history rs targetEntity targetId

def recent (b : Book) (q : Audit.FeedQuery) : Except Audit.Error (List Audit.Record) :=
  b.records.map fun rs => Audit.recent rs q

end Book

end Clientele.Crm
