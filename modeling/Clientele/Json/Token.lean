import Clientele.Json.Value

/-!
Texts are cut into tokens one character at a time. The state between two characters says which
token has been begun; whatever cannot be continued is refused. A token may keep to the grammar and
still have no value, which is for the reader to judge.
-/
set_option autoImplicit false

namespace Clientele.Json

inductive Token where
  | openList | closeList | openObject | closeObject | comma | colon
  /-- A string, with nothing where its escapes name halves of characters that do not match. -/
  | text (s : Option String)
  | number (n : Option Number)
  | word (v : Json)

inductive Begun where
  | none
  | word (cs : List Char)
  | number (cs : List Char)
  | text (cs : Option (List Char))
  | escape (cs : Option (List Char))
  | unit (cs : Option (List Char)) (digits : Nat) (value : Nat) (leading : Option Nat)
  /-- After the escape of a leading half, which needs a trailing half. -/
  | half (cs : Option (List Char)) (leading : Nat)
  | halfEscape (cs : Option (List Char)) (leading : Nat)

def isBlank (c : Char) : Bool := c == ' ' || c == '\n' || c == '\r' || c == '\t'

def isNumberChar (c : Char) : Bool :=
  c.isDigit || c == '-' || c == '+' || c == '.' || c == 'e' || c == 'E'

def isWordChar (c : Char) : Bool := 'a' ≤ c && c ≤ 'z'

def wordToken? (cs : List Char) : Option Token :=
  if cs = ['n', 'u', 'l', 'l'] then some (.word .null)
  else if cs = ['t', 'r', 'u', 'e'] then some (.word (.bool true))
  else if cs = ['f', 'a', 'l', 's', 'e'] then some (.word (.bool false))
  else Option.none

def numberToken? (cs : List Char) : Option Token :=
  (Number.lexeme? cs).map fun l => .number l.number?

def hexValue? (c : Char) : Option Nat :=
  if '0' ≤ c ∧ c ≤ '9' then some (c.toNat - '0'.toNat)
  else if 'a' ≤ c ∧ c ≤ 'f' then some (c.toNat - 'a'.toNat + 10)
  else if 'A' ≤ c ∧ c ≤ 'F' then some (c.toNat - 'A'.toNat + 10)
  else Option.none

def escaped? (c : Char) : Option Char :=
  if c = '"' ∨ c = '\\' ∨ c = '/' then some c
  else if c = 'b' then some (.ofNat 8)
  else if c = 'f' then some (.ofNat 12)
  else if c = 'n' then some '\n'
  else if c = 'r' then some '\r'
  else if c = 't' then some '\t'
  else Option.none

/-- What follows a complete escape of four digits: a character, or the first of two halves. -/
def closeUnit (cs : Option (List Char)) (value : Nat) : Option Nat → Begun
  | some leading =>
    if 0xDC00 ≤ value ∧ value ≤ 0xDFFF then
      .text (cs.map (.ofNat (0x10000 + (leading - 0xD800) * 0x400 + (value - 0xDC00)) :: ·))
    else .text Option.none
  | Option.none =>
    if 0xD800 ≤ value ∧ value ≤ 0xDBFF then .half cs value
    else if 0xDC00 ≤ value ∧ value ≤ 0xDFFF then .text Option.none
    else .text (cs.map (.ofNat value :: ·))

def feedText? (cs : Option (List Char)) (c : Char) : Option (List Token × Begun) :=
  if c = '"' then some ([.text (cs.map fun cs => .ofList cs.reverse)], .none)
  else if c = '\\' then some ([], .escape cs)
  else if c.toNat < 32 then Option.none
  else some ([], .text (cs.map (c :: ·)))

def feedEscape? (cs : Option (List Char)) (c : Char) : Option (List Token × Begun) :=
  if c = 'u' then some ([], .unit cs 0 0 Option.none)
  else (escaped? c).map fun e => ([], .text (cs.map (e :: ·)))

def begin? (c : Char) : Option (List Token × Begun) :=
  if isBlank c then some ([], .none)
  else if c = '[' then some ([.openList], .none)
  else if c = ']' then some ([.closeList], .none)
  else if c = '\x7b' then some ([.openObject], .none)
  else if c = '\x7d' then some ([.closeObject], .none)
  else if c = ',' then some ([.comma], .none)
  else if c = ':' then some ([.colon], .none)
  else if c = '"' then some ([], .text (some []))
  else if c = '-' ∨ c.isDigit then some ([], .number [c])
  else if isWordChar c then some ([], .word [c])
  else Option.none

/-- Reads one character: the tokens it completes, and what is begun after it. -/
def Begun.feed? (b : Begun) (c : Char) : Option (List Token × Begun) :=
  match b with
  | .none => begin? c
  | .word cs =>
    if isWordChar c then some ([], .word (c :: cs))
    else (wordToken? cs.reverse).bind fun t => (begin? c).map fun (ts, b) => (t :: ts, b)
  | .number cs =>
    if isNumberChar c then some ([], .number (c :: cs))
    else (numberToken? cs.reverse).bind fun t => (begin? c).map fun (ts, b) => (t :: ts, b)
  | .text cs => feedText? cs c
  | .escape cs => feedEscape? cs c
  | .unit cs digits value leading =>
    (hexValue? c).map fun d =>
      if digits = 3 then ([], closeUnit cs (16 * value + d) leading)
      else ([], .unit cs (digits + 1) (16 * value + d) leading)
  | .half cs leading =>
    if c = '\\' then some ([], .halfEscape cs leading) else feedText? Option.none c
  | .halfEscape cs leading =>
    if c = 'u' then some ([], .unit cs 0 0 (some leading)) else feedEscape? Option.none c

def Begun.finish? : Begun → Option (List Token)
  | .none => some []
  | .word cs => (wordToken? cs.reverse).map fun t => [t]
  | .number cs => (numberToken? cs.reverse).map fun t => [t]
  | _ => Option.none

def Begun.tokens? (b : Begun) (done : List Token) : List Char → Option (List Token)
  | [] => b.finish?.map fun ts => done.reverse ++ ts
  | c :: cs =>
    match b.feed? c with
    | some (ts, b) => b.tokens? (ts.reverse ++ done) cs
    | Option.none => Option.none

def tokens? (cs : List Char) : Option (List Token) := Begun.none.tokens? [] cs

end Clientele.Json
