import Clientele.Decimal.Notation

/-!
Numbers of a document: integers from -2^63 to 2^64 - 1 are kept exactly, every other number is a
finite double. A lexeme of the grammar without point and exponent is an integer where it fits.
Doubles are read fast rather than exactly: the result may miss the nearest double.
-/
set_option autoImplicit false

namespace Clientele

/-- An integer from -2^63 to 2^64 - 1. -/
structure Whole where
  val : Int
  lower : -0x8000000000000000 ≤ val
  upper : val < 0x10000000000000000
  deriving DecidableEq

structure Finite where
  val : Float
  isFinite : val.isFinite = true
  deriving DecidableEq

inductive Number where
  | whole (n : Whole)
  | real (x : Finite)
  deriving DecidableEq

namespace Number

def ofInt? (n : Int) : Option Number :=
  if h : -0x8000000000000000 ≤ n ∧ n < 0x10000000000000000 then some (.whole ⟨n, h.1, h.2⟩) else none

def ofFloat? (x : Float) : Option Number :=
  if h : x.isFinite = true then some (.real ⟨x, h⟩) else none

def ofNat (n : Nat) : Number :=
  if h : n < 0x10000000000000000 then .whole ⟨n, by omega, by omega⟩
  else .whole ⟨0xFFFFFFFFFFFFFFFF, by decide, by decide⟩

def zero : Number := .whole ⟨0, by decide, by decide⟩

/-- The number as a double; integers beyond 2^53 are rounded. -/
def toFloat : Number → Float
  | .whole n => Float.ofInt n.val
  | .real x => x.val

/-- The integer behind a number that is not written as a fraction and fits 64 signed bits. -/
def toInt64? : Number → Option Int
  | .whole n => if n.val < 0x8000000000000000 then some n.val else none
  | .real _ => none

def toNat? : Number → Option Nat
  | .whole n => if 0 ≤ n.val then some n.val.toNat else none
  | .real _ => none

/-- Numbers are ordered as doubles. -/
def compare (a b : Number) : Ordering :=
  Ord.compare (Decimal.place a.toFloat) (Decimal.place b.toFloat)

/-- Equality of numbers inside lists and objects: an integer never equals a double. -/
def same : Number → Number → Bool
  | .whole a, .whole b => a.val == b.val
  | .real a, .real b => Decimal.place a.val == Decimal.place b.val
  | _, _ => false

def text : Number → List Char
  | .whole n => (if n.val < 0 then ['-'] else []) ++ Decimal.digitsOf n.val.natAbs
  | .real x => Decimal.floatText x.val

def digitValue (c : Char) : Nat := c.toNat - '0'.toNat

def natOfDigits (ds : List Char) : Nat := ds.foldl (fun n c => 10 * n + digitValue c) 0

/-- Takes digits into a significand as long as it stays below 2^64, and gives those that remain. -/
def takeDigits (n : Nat) : List Char → Nat × List Char
  | [] => (n, [])
  | c :: cs =>
    let taken := 10 * n + digitValue c
    if taken < 0x10000000000000000 then takeDigits taken cs else (n, c :: cs)

def powerOfTen (n : Nat) : Float := .ofScientific 1 false n

def shrink (x : Float) : Nat → Float
  | 0 => x
  | n + 1 => if x == 0 then x else shrink (x / powerOfTen 308) n

def divide (x : Float) (n : Nat) : Float :=
  let steps := (n - 1) / 308
  shrink x steps / powerOfTen (n - 308 * steps)

/-- The double for a significand and a power of ten: one product or quotient, which need not be the
nearest double and may be infinite. There is none for a power too large. -/
def scale? (significand : Nat) (exponent : Int) : Option Float :=
  let x := Float.ofNat significand
  if exponent < 0 then some (divide x exponent.natAbs)
  else if exponent ≤ 308 then some (x * powerOfTen exponent.natAbs)
  else if x == 0 then some x
  else none

structure Lexeme where
  negative : Bool
  whole : List Char
  fraction : Option (List Char)
  exponent : Option (Bool × List Char)

def isWholePart : List Char → Bool
  | [] => false
  | ['0'] => true
  | '0' :: _ => false
  | _ => true

def lexeme? (cs : List Char) : Option Lexeme :=
  let (negative, cs) := match cs with
    | '-' :: rest => (true, rest)
    | cs => (false, cs)
  let whole := cs.takeWhile Char.isDigit
  let (fraction, rest) := match cs.dropWhile Char.isDigit with
    | '.' :: rest => (some (rest.takeWhile Char.isDigit), rest.dropWhile Char.isDigit)
    | rest => (none, rest)
  let exponent? : Option (Option (Bool × List Char)) := match rest with
    | [] => some none
    | e :: rest =>
      if e = 'e' ∨ e = 'E' then
        let (down, ds) := match rest with
          | '-' :: ds => (true, ds)
          | '+' :: ds => (false, ds)
          | ds => (false, ds)
        if ds ≠ [] ∧ ds.all Char.isDigit then some (some (down, ds)) else none
      else none
  match exponent? with
  | none => none
  | some exponent =>
    if isWholePart whole && fraction != some [] then some ⟨negative, whole, fraction, exponent⟩ else none

/-- The value of a lexeme as a double, unless it is too large. Digits for which the significand has
no room raise the exponent before the point, and are ignored behind it. -/
def Lexeme.real? (l : Lexeme) : Option Number :=
  let fraction := l.fraction.getD []
  let (significand, beyond) := takeDigits 0 l.whole
  let (significand, ignored) := takeDigits significand fraction
  let exponent : Int := match l.exponent with
    | none => 0
    | some (down, ds) => if down then -natOfDigits ds else natOfDigits ds
  (scale? significand (exponent + beyond.length - (fraction.length - ignored.length))).bind fun x =>
    ofFloat? (if l.negative then -x else x)

/-- An integer lexeme that fits is kept exactly, `-0` and all other lexemes become doubles. -/
def Lexeme.number? (l : Lexeme) : Option Number :=
  match l.fraction, l.exponent with
  | none, none =>
    let n := natOfDigits l.whole
    let exact := if l.negative then if n = 0 then none else ofInt? (-n) else ofInt? n
    exact.orElse fun _ => l.real?
  | _, _ => l.real?

end Number

end Clientele
