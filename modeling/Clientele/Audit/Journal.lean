import Clientele.Audit.Record
import Clientele.Json.Reader
import Clientele.Text.Basic

/-!
The journal is a text with one entry a line: the checksum of the body in hexadecimal, a blank, and
the body, which tells of a new record or of an amendment. Replaying the lines in order gives the
records. A line that cannot be replayed is reported with its number, and nothing is replayed then.

The checksum is the cyclic redundancy check of 32 bits: polynomial 0xEDB88320 with reflected bits,
all ones before and after.
-/
set_option autoImplicit false

namespace Clientele.Audit

def crcBit (r : UInt32) : UInt32 := if r &&& 1 = 1 then (r >>> 1) ^^^ 0xEDB88320 else r >>> 1

def crcByte (r : UInt32) (b : UInt8) : UInt32 :=
  crcBit (crcBit (crcBit (crcBit (crcBit (crcBit (crcBit (crcBit (r ^^^ b.toUInt32))))))))

def crc32 (bytes : List UInt8) : UInt32 := bytes.foldl crcByte 0xFFFFFFFF ^^^ 0xFFFFFFFF

def checksum (cs : List Char) : Nat := (crc32 (String.ofList cs).toUTF8.data.toList).toNat

inductive Entry where
  | record (r : Record)
  | amend (id : Identifier) (change : Change) (time : Time.Instant)
  deriving DecidableEq

namespace Entry

def toJson : Entry → Json
  | record r => .obj [("kind", .str "record"), ("record", r.toJson)]
  | amend id change time =>
    .obj [("kind", .str "amend"), ("id", id.toJson), ("change", change.toJson),
      ("at", .str time.exact)]

def ofJson? (v : Json) : Option Entry := do
  let (kind, rest) ← v.tagged? "kind"
  let kind ← kind.text?
  if kind = "record" then
    match rest.slots? ["record"] with
    | some [some r] => (Record.ofJournal? r).map .record
    | _ => none
  else if kind = "amend" then
    match rest.slots? ["id", "change", "at"] with
    | some [some id, some change, some time] => do
      let id ← Identifier.ofJson? id
      let change ← Change.ofJson? change
      let time ← time.text?.bind Time.loose?
      pure (.amend id change time)
    | _ => none
  else none

def checksumText (n : Nat) : List Char := Identifier.digitsFrom n 8

def body (e : Entry) : List Char := e.toJson.compactChars

def line (e : Entry) : List Char := checksumText (checksum e.body) ++ ' ' :: (e.body ++ ['\n'])

end Entry

inductive LineFault where
  | noChecksum
  | malformedChecksum
  | wrongChecksum
  | invalidEntry
  | unknownRecord (id : Identifier)
  deriving DecidableEq

def LineFault.message : LineFault → String
  | noChecksum => "missing checksum"
  | malformedChecksum => "malformed checksum"
  | wrongChecksum => "checksum mismatch"
  | invalidEntry => "invalid entry"
  | unknownRecord id => s!"amendment for unknown record {id.text}"

/-- A checksum: hexadecimal digits in either case, which a plus may precede, below 2^32. -/
def readChecksum? (cs : List Char) : Option Nat :=
  let ds := match cs with
    | '+' :: ds => ds
    | ds => ds
  if ds.isEmpty then none
  else (Identifier.valueOf? ds).bind fun n => if n < 0x100000000 then some n else none

def cutLine? (cs : List Char) : Option (List Char × List Char) :=
  match cs.dropWhile (· ≠ ' ') with
  | [] => none
  | _ :: body => some (cs.takeWhile (· ≠ ' '), body)

def decodeLine (cs : List Char) : Except LineFault Entry :=
  match cutLine? cs with
  | none => .error .noChecksum
  | some (sum, body) =>
    match readChecksum? sum with
    | none => .error .malformedChecksum
    | some n =>
      if checksum body ≠ n then .error .wrongChecksum
      else ((Json.parseRaw? (.ofList body)).bind Entry.ofJson?).elim (.error .invalidEntry) .ok

def replayEntry (rs : List Record) : Entry → Except LineFault (List Record)
  | .record r => .ok (rs ++ [r])
  | .amend id change time => (amendIn rs id change time).elim (.error (.unknownRecord id)) .ok

def replayLine (rs : List Record) (cs : List Char) : Except LineFault (List Record) :=
  (decodeLine cs).bind (replayEntry rs)

/-- Replays lines; empty ones count for their numbers only. The fault comes with the number of its
line. -/
def replayLines (rs : List Record) (number : Nat) : List (List Char) → Except (Nat × LineFault) (List Record)
  | [] => .ok rs
  | line :: rest =>
    if line.isEmpty then replayLines rs (number + 1) rest
    else
      match replayLine rs line with
      | .error fault => .error (number, fault)
      | .ok rs => replayLines rs (number + 1) rest

def replay (text : List Char) : Except (Nat × LineFault) (List Record) :=
  replayLines [] 1 (Text.lines text)

def entryCount (text : List Char) : Nat := ((Text.lines text).filter (!·.isEmpty)).length

end Clientele.Audit
