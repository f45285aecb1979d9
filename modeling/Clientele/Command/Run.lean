import Clientele.Command.Session
import Clientele.Text.Basic
import Clientele.Json.Printer

/-!
Running one command from beginning to end: the configuration is loaded, a session begins, the
request is read, and the answer is put in an envelope that tells success from failure. The log is
kept from the severity up that the configuration names, and before it is known from the level of
information up.
-/
set_option autoImplicit false

namespace Clientele.Command

def Error.code : Error → String
  | .config e => e.code
  | .snapshot e => e.code
  | .trail e => e.code
  | .crm e => e.code
  | .emptyInput | .malformedInput | .noInput => "CRM_CLI_INVALID_INPUT"

def Error.message : Error → String
  | .config e => e.message
  | .snapshot e => e.message
  | .trail e => e.message
  | .crm e => e.message
  | .emptyInput => "invalid input: empty input"
  | .malformedInput => "invalid input: JSON error: not a request"
  | .noInput => "invalid input: request body required"

/-- Reads a request. White space alone is no request. -/
def parseRequest (text : String) : Except Error Json :=
  if (Text.trim text.toList).isEmpty then .error .emptyInput
  else (Json.parse? text).elim (.error .malformedInput) .ok

def requestFor (task : Task) (text : String) : Except Error (Option Json) :=
  if task.readsInput then (parseRequest text).map some else .ok none

/-- What a command leaves behind: its answer, the lines of the log, and the disk. -/
structure Outcome where
  answer : Except Error Json
  log : List String
  disk : Disk

namespace Outcome

def succeeded (o : Outcome) : Bool :=
  match o.answer with
  | .ok _ => true
  | .error _ => false

def toJson (o : Outcome) : Json :=
  match o.answer with
  | .ok data => .obj [("status", .str "ok"), ("data", data)]
  | .error e =>
    .obj [("status", .str "error"), ("code", .str e.code), ("message", .str e.message)]

end Outcome

def loadedEntry (route : Route) (c : Config) : Telemetry.Entry :=
  ⟨.configLoaded, [("data_dir", c.dataDir.text), ("max_limit", toString c.maxLimit),
    ("path", route.text)]⟩

def logLines (c : Config) (log : List Telemetry.Entry) : List String :=
  Telemetry.linesFrom (c.severity?.getD .info) log

def runTask (c : Config) (task : Task) (input : String) (disk : Disk) (supply : Crm.Supply) :
    Outcome :=
  match Session.start c disk supply with
  | .error f => ⟨.error f.error, logLines c f.log, f.disk⟩
  | .ok s =>
    match requestFor task input with
    | .error e => ⟨.error e, logLines c s.book.log, s.disk⟩
    | .ok body =>
      let (answer, s) := s.execute task body
      ⟨answer, logLines c s.book.log, s.disk⟩

def run (command : Command) (input : String) (disk : Disk) (supply : Crm.Supply) : Outcome :=
  match Config.load command.config disk with
  | .error e => ⟨.error (.config e), [], disk⟩
  | .ok c =>
    let outcome := runTask c command.task input disk supply
    { outcome with
      log := Telemetry.linesFrom .info [loadedEntry command.config c] ++ outcome.log }

end Clientele.Command
