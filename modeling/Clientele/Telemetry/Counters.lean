import Clientele.Json.Value

/-!
Counters of what has been done since the start.
-/
set_option autoImplicit false

namespace Clientele.Telemetry

structure Counters where
  queriesExecuted : Nat
  queriesRejected : Nat
  rowsReturned : Nat
  entitiesCreated : Nat
  entitiesUpdated : Nat
  entitiesDeleted : Nat
  auditRecordsWritten : Nat
  auditAmendments : Nat
  auditWriteFailures : Nat
  deriving DecidableEq, Repr

def Counters.zero : Counters := ⟨0, 0, 0, 0, 0, 0, 0, 0, 0⟩

def Counters.toJson (c : Counters) : Json :=
  .obj [("queries_executed", .ofNat c.queriesExecuted), ("queries_rejected", .ofNat c.queriesRejected),
    ("rows_returned", .ofNat c.rowsReturned), ("entities_created", .ofNat c.entitiesCreated),
    ("entities_updated", .ofNat c.entitiesUpdated), ("entities_deleted", .ofNat c.entitiesDeleted),
    ("audit_records_written", .ofNat c.auditRecordsWritten),
    ("audit_amendments", .ofNat c.auditAmendments),
    ("audit_write_failures", .ofNat c.auditWriteFailures)]

end Clientele.Telemetry
