import Clientele.Telemetry.Event
import Clientele.Json.Printer

/-!
The log. An entry is an event with its fields; its line is an object of strings that begins with
the event and its severity and goes on with the fields by name.
-/
set_option autoImplicit false

namespace Clientele.Telemetry

structure Entry where
  event : Event
  fields : List (String × String)
  deriving DecidableEq

/-- Control characters as Unicode has them. -/
def isControl (c : Char) : Bool := c.toNat < 32 || (127 ≤ c.toNat && c.toNat < 160)

def escapeChar (c : Char) : List Char :=
  if c = '"' then ['\\', '"']
  else if c = '\\' then ['\\', '\\']
  else if c = '\n' then ['\\', 'n']
  else if c = '\r' then ['\\', 'r']
  else if c = '\t' then ['\\', 't']
  else if isControl c then Json.hexEscape c
  else [c]

def quoted (s : String) : List Char := '"' :: (s.toList.flatMap escapeChar ++ ['"'])

def fieldChars (f : String × String) : List Char := ',' :: (quoted f.1 ++ ':' :: quoted f.2)

/-- Fields by name; those of one name keep their order. -/
def sortFields (fs : List (String × String)) : List (String × String) :=
  fs.mergeSort fun a b => a.1 ≤ b.1

def lineChars (severity : Severity) (event : String) (fields : List (String × String)) : List Char :=
  '\x7b' :: (quoted "event" ++ ':' :: (quoted event ++
    (fieldChars ("severity", severity.name) ++ ((sortFields fields).flatMap fieldChars ++ ['\x7d', '\n']))))

def line (severity : Severity) (event : String) (fields : List (String × String)) : String :=
  .ofList (lineChars severity event fields)

def linesFrom (least : Severity) (entries : List Entry) : List String :=
  (entries.filter fun e => least.level ≤ e.event.severity.level).map fun e =>
    line e.event.severity e.event.name e.fields

end Clientele.Telemetry
