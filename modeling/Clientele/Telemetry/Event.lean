/-!
What the program reports about its work: the kinds of events and how severe each is.
-/
set_option autoImplicit false

namespace Clientele.Telemetry

inductive Severity where
  | trace | info | warn | error
  deriving DecidableEq, Repr

namespace Severity

def name : Severity → String
  | trace => "TRACE"
  | info => "INFO"
  | warn => "WARN"
  | error => "ERROR"

def level : Severity → Nat
  | trace => 0
  | info => 1
  | warn => 2
  | error => 3

def all : List Severity := [trace, info, warn, error]

def ofName? (s : String) : Option Severity :=
  all.find? fun v => v.name.toList == s.toList.map Char.toUpper

end Severity

inductive Event where
  | configLoaded | storeLoaded | storeSaved
  | filterOperatorIgnored
  | queryExecuted | queryRejected
  | entityCreated | entityUpdated | entityDeleted
  | auditRecorded | auditAmended | auditWriteFailed | auditJournalReplayed
  deriving DecidableEq, Repr

namespace Event

def name : Event → String
  | configLoaded => "CONFIG_LOADED"
  | storeLoaded => "STORE_LOADED"
  | storeSaved => "STORE_SAVED"
  | filterOperatorIgnored => "FILTER_OPERATOR_IGNORED"
  | queryExecuted => "QUERY_EXECUTED"
  | queryRejected => "QUERY_REJECTED"
  | entityCreated => "ENTITY_CREATED"
  | entityUpdated => "ENTITY_UPDATED"
  | entityDeleted => "ENTITY_DELETED"
  | auditRecorded => "AUDIT_RECORDED"
  | auditAmended => "AUDIT_AMENDED"
  | auditWriteFailed => "AUDIT_WRITE_FAILED"
  | auditJournalReplayed => "AUDIT_JOURNAL_REPLAYED"

def severity : Event → Severity
  | filterOperatorIgnored | queryRejected => .warn
  | auditWriteFailed => .error
  | _ => .info

def all : List Event :=
  [configLoaded, storeLoaded, storeSaved, filterOperatorIgnored, queryExecuted, queryRejected,
    entityCreated, entityUpdated, entityDeleted, auditRecorded, auditAmended, auditWriteFailed,
    auditJournalReplayed]

end Event

end Clientele.Telemetry
