import Clientele.Time.Instant
import Clientele.Text.Basic

/-!
Time stamps: `2024-05-01T10:00:00.000Z` and its relatives. A stamp is written in universal time
with three places, with as few as the value needs in steps of three, or with nine. The strict
reader takes a date, a time and an offset in their full widths; the loose reader lets blanks stand
between them and numbers be short; a plain date is read as its midnight.
-/
set_option autoImplicit false

namespace Clientele.Time

def padded (width n : Nat) : List Char :=
  let ds := Nat.toDigits 10 n
  List.replicate (width - ds.length) '0' ++ ds

/-- Years outside 0 to 9999 carry a sign. -/
def yearText (y : Int) : List Char :=
  if 0 ≤ y ∧ y ≤ 9999 then padded 4 y.toNat
  else (if y < 0 then '-' else '+') :: padded 4 y.natAbs

def places (n nano : Nat) : List Char := '.' :: padded n (nano / Nat.pow 10 (9 - n))

/-- The places that a fraction needs, in steps of three. -/
def neededPlaces (nano : Nat) : List Char :=
  if nano = 0 then []
  else if nano % 1000000 = 0 then places 3 nano
  else if nano % 1000 = 0 then places 6 nano
  else places 9 nano

/-- A stamp with the given way to write the fraction; inside a leap second the second is 60. -/
def Instant.chars (fraction : Nat → List Char) (t : Instant) : List Char :=
  let d := Date.ofDays t.day
  let s := t.second.val
  let leap := t.nano.val / 1000000000
  yearText d.year ++ '-' :: (padded 2 d.month ++ '-' :: (padded 2 d.day ++ 'T' ::
    (padded 2 (s / 3600) ++ ':' :: (padded 2 (s / 60 % 60) ++ ':' :: (padded 2 (s % 60 + leap) ++
      (fraction (t.nano.val % 1000000000) ++ ['Z']))))))

def Instant.millis (t : Instant) : String := .ofList (t.chars (places 3))

def Instant.exact (t : Instant) : String := .ofList (t.chars neededPlaces)

def Instant.full (t : Instant) : String := .ofList (t.chars (places 9))

def number? (least most : Nat) (cs : List Char) : Option (Nat × List Char) :=
  let ds := (cs.take most).takeWhile Char.isDigit
  if least ≤ ds.length then
    some (ds.foldl (fun n c => 10 * n + (c.toNat - '0'.toNat)) 0, cs.drop ds.length)
  else none

def char? (c : Char) : List Char → Option (List Char)
  | d :: cs => if d = c then some cs else none
  | [] => none

/-- An optional point with at least one digit; from the tenth on digits count for nothing. -/
def fraction? : List Char → Option (Nat × List Char)
  | '.' :: cs => do
    let (n, rest) ← number? 1 9 cs
    pure (n * Nat.pow 10 (9 - (cs.length - rest.length)), rest.dropWhile Char.isDigit)
  | cs => some (0, cs)

/-- The sign of an offset; the mathematical minus counts too. -/
def sign? : List Char → Option (Bool × List Char)
  | '+' :: cs => some (false, cs)
  | '-' :: cs => some (true, cs)
  | '−' :: cs => some (true, cs)
  | _ => none

/-- An offset from universal time in seconds: `Z`, or a sign with hours and minutes, with what
`between` lets stand between these. -/
def offset? (between : List Char → Option (List Char)) : List Char → Option (Int × List Char)
  | 'Z' :: cs => some (0, cs)
  | 'z' :: cs => some (0, cs)
  | cs => do
    let (negative, cs) ← sign? cs
    let (hours, cs) ← number? 2 2 cs
    let cs ← between cs
    let (minutes, cs) ← number? 2 2 cs
    if 59 < minutes then none
    else
      let seconds : Int := hours * 3600 + minutes * 60
      pure (if negative then -seconds else seconds, cs)

def separator? : List Char → Option (List Char)
  | c :: cs => if c = 'T' ∨ c = 't' ∨ c = ' ' then some cs else none
  | [] => none

/-- The instant of a local date and time at an offset. The second may be 60. -/
def assemble? (date : Date) (hour minute second nano : Nat) (offset : Int) : Option Instant :=
  if h : date.isValid ∧ minYear ≤ date.year ∧ date.year ≤ maxYear ∧ hour < 24 ∧ minute < 60 ∧
      second ≤ 60 ∧ nano < 1000000000 ∧ -86400 < offset ∧ offset < 86400 then
    let seconds : Int := hour * 3600 + minute * 60 + (min second 59 : Nat) - offset
    let day := date.toDays + seconds / 86400
    let leap := if second = 60 then 1000000000 else 0
    if minDay ≤ day ∧ day ≤ maxDay then
      some ⟨day, ⟨(seconds % 86400).toNat, by omega⟩, ⟨nano + leap, by grind⟩⟩
    else none
  else none

/-- Reads a stamp in which every number has its full width. -/
def strictChars? (cs : List Char) : Option Instant := do
  let (year, cs) ← number? 4 4 cs
  let cs ← char? '-' cs
  let (month, cs) ← number? 2 2 cs
  let cs ← char? '-' cs
  let (day, cs) ← number? 2 2 cs
  let cs ← separator? cs
  let (hour, cs) ← number? 2 2 cs
  let cs ← char? ':' cs
  let (minute, cs) ← number? 2 2 cs
  let cs ← char? ':' cs
  let (second, cs) ← number? 2 2 cs
  let (nano, cs) ← fraction? cs
  let (offset, cs) ← offset? (char? ':') cs
  if cs.isEmpty then assemble? ⟨year, month, day⟩ hour minute second nano offset else none

def strict? (s : String) : Option Instant := strictChars? s.toList

/-- A year after blanks: with a sign any number of digits, without one at most four. -/
def looseYear? (cs : List Char) : Option (Int × List Char) :=
  match Text.trimLeft cs with
  | '-' :: cs => (number? 1 cs.length cs).map fun (n, rest) => (-(n : Int), rest)
  | '+' :: cs => (number? 1 cs.length cs).map fun (n, rest) => ((n : Int), rest)
  | cs => (number? 1 4 cs).map fun (n, rest) => ((n : Int), rest)

def looseNumber? (cs : List Char) : Option (Nat × List Char) := number? 1 2 (Text.trimLeft cs)

def looseDate? (between : List Char → List Char) (cs : List Char) : Option (Date × List Char) := do
  let (year, cs) ← looseYear? cs
  let cs ← char? '-' (between cs)
  let (month, cs) ← looseNumber? cs
  let cs ← char? '-' (between cs)
  let (day, cs) ← looseNumber? cs
  pure (⟨year, month, day⟩, cs)

def midnightChars? (cs : List Char) : Option Instant := do
  let (date, cs) ← looseDate? id cs
  if cs.isEmpty then assemble? date 0 0 0 0 0 else none

def midnight? (s : String) : Option Instant := midnightChars? s.toList

def isColonOrBlank (c : Char) : Bool := c == ':' || Text.isBlank c

def utcName? : List Char → Option (List Char)
  | u :: t :: c :: cs =>
    if u.toUpper = 'U' ∧ t.toUpper = 'T' ∧ c.toUpper = 'C' then some cs else none
  | _ => none

def looseOffset? (cs : List Char) : Option (Int × List Char) :=
  match utcName? cs with
  | some rest => some (0, rest)
  | none => offset? (fun cs => some (cs.dropWhile isColonOrBlank)) cs

/-- Reads a stamp in which blanks may stand between the parts. -/
def looseChars? (cs : List Char) : Option Instant := do
  let (date, cs) ← looseDate? Text.trimLeft cs
  let cs ← separator? cs
  let (hour, cs) ← looseNumber? cs
  let cs ← char? ':' (Text.trimLeft cs)
  let (minute, cs) ← looseNumber? cs
  let cs ← char? ':' (Text.trimLeft cs)
  let (second, cs) ← looseNumber? cs
  let (nano, cs) ← fraction? cs
  let (offset, cs) ← looseOffset? (Text.trimLeft cs)
  if (Text.trimLeft cs).isEmpty then assemble? date hour minute second nano offset else none

def loose? (s : String) : Option Instant := looseChars? s.toList

end Clientele.Time
