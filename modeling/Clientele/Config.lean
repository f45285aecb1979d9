import Clientele.Filter.Wire
import Clientele.Json.Reader
import Clientele.Telemetry.Event
import Clientele.Files.Disk

/-!
The configuration: where the documents are, where the journal is if there is one, and how requests
are read and reported.
-/
set_option autoImplicit false

namespace Clientele

structure Config where
  dataDir : Route
  auditLog : Option Route
  policy : Filter.Policy
  maxLimit : Nat
  logLevel : String

namespace Config

inductive Error where
  | unreadable (route : Route) (fault : FileFault)
  | malformed
  | noDataDir
  | noLimit
  | emptyAuditLog
  | unknownLevel (level : String)

def fieldNames : List String :=
  ["data_dir", "audit_log", "operator_policy", "max_limit", "log_level"]

def ofJson? (v : Json) : Option Config :=
  match v.slots? fieldNames with
  | some [some dataDir, auditLog, policy, maxLimit, logLevel] => do
    let dataDir ← dataDir.text?
    let auditLog ← Json.optional? Json.text? auditLog
    let policy ← Json.withDefault? Filter.Policy.strict Filter.Policy.ofJson? policy
    let maxLimit ← Json.withDefault? 1000 Json.nat? maxLimit
    let logLevel ← Json.withDefault? "info" Json.text? logLevel
    pure ⟨⟨dataDir⟩, auditLog.map Route.mk, policy, maxLimit, logLevel⟩
  | _ => none

def toJson (c : Config) : Json :=
  .obj [("data_dir", .str c.dataDir.text), ("audit_log", Json.orNull (c.auditLog.map fun r => .str r.text)),
    ("operator_policy", .str c.policy.name), ("max_limit", .ofNat c.maxLimit),
    ("log_level", .str c.logLevel)]

def severity? (c : Config) : Option Telemetry.Severity := Telemetry.Severity.ofName? c.logLevel

def fault? (c : Config) : Option Error :=
  if c.dataDir.text = "" then some .noDataDir
  else if c.maxLimit = 0 then some .noLimit
  else if c.auditLog = some ⟨""⟩ then some .emptyAuditLog
  else if c.severity?.isNone then some (.unknownLevel c.logLevel)
  else none

/-- Reads a configuration. Its keys must not be repeated; what stands under other keys is not read.
-/
def ofText (text : String) : Except Error Config :=
  match (Json.parseFields? fieldNames text).bind ofJson? with
  | none => .error .malformed
  | some c =>
    match c.fault? with
    | some e => .error e
    | none => .ok c

def load (route : Route) (disk : Disk) : Except Error Config :=
  match disk.read route with
  | .error fault => .error (.unreadable route fault)
  | .ok text => ofText text

def Error.code : Error → String
  | .unreadable .. => "CRM_CONFIG_READ"
  | _ => "CRM_CONFIG_INVALID"

def Error.message : Error → String
  | .unreadable route fault => s!"failed to read config {route.text}: {fault.message}"
  | .malformed => "invalid config JSON: not a configuration"
  | .noDataDir => "invalid config: data_dir must not be empty"
  | .noLimit => "invalid config: max_limit must be > 0"
  | .emptyAuditLog => "invalid config: audit_log must not be empty"
  | .unknownLevel level =>
    s!"invalid config: log_level '{level}' must be one of trace, info, warn, error"

end Config

end Clientele
