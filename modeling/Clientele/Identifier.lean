import Clientele.Json.Value

/-!
Identifiers are 128 bits. They are written as 32 hexadecimal digits in groups of 8, 4, 4, 4 and
12, and read in that form, without the hyphens, in braces, or after `urn:uuid:` in any case.
-/
set_option autoImplicit false

namespace Clientele

structure Identifier where
  bits : BitVec 128
  deriving DecidableEq, Hashable

namespace Identifier

def digit (n : Nat) : Char := (Nat.toDigits 16 (n % 16)).headD '0'

def digitsFrom (n : Nat) : Nat → List Char
  | 0 => []
  | places + 1 => digit (n / Nat.pow 16 places) :: digitsFrom n places

def grouped (ds : List Char) : List Char :=
  ds.take 8 ++ '-' :: ((ds.drop 8).take 4 ++ '-' :: ((ds.drop 12).take 4 ++
    '-' :: ((ds.drop 16).take 4 ++ '-' :: ds.drop 20)))

def chars (i : Identifier) : List Char := grouped (digitsFrom i.bits.toNat 32)

def text (i : Identifier) : String := .ofList i.chars

def hexValue? (c : Char) : Option Nat :=
  if '0' ≤ c ∧ c ≤ '9' then some (c.toNat - '0'.toNat)
  else if 'a' ≤ c ∧ c ≤ 'f' then some (c.toNat - 'a'.toNat + 10)
  else if 'A' ≤ c ∧ c ≤ 'F' then some (c.toNat - 'A'.toNat + 10)
  else none

def valueOf? (ds : List Char) : Option Nat :=
  ds.foldlM (fun n c => (hexValue? c).map (16 * n + ·)) 0

def ofDigits? (ds : List Char) : Option Identifier :=
  if ds.length = 32 then (valueOf? ds).map fun n => ⟨BitVec.ofNat 128 n⟩ else none

def ungrouped? (cs : List Char) : Option (List Char) :=
  if cs.length = 36 ∧ [8, 13, 18, 23].all fun i => cs[i]? == some '-' then
    some (cs.take 8 ++ (cs.drop 9).take 4 ++ (cs.drop 14).take 4 ++ (cs.drop 19).take 4 ++ cs.drop 24)
  else none

def hyphenated? (cs : List Char) : Option Identifier := (ungrouped? cs).bind ofDigits?

/-- What stands between braces, or after the name of the scheme. -/
def unwrapped (cs : List Char) : List Char :=
  if cs.length = 38 ∧ cs.head? = some '\x7b' ∧ cs.getLast? = some '\x7d' then (cs.drop 1).take 36
  else if cs.length = 45 ∧ (cs.take 9).map Char.toLower = "urn:uuid:".toList then cs.drop 9
  else cs

def ofChars? (cs : List Char) : Option Identifier :=
  if cs.length = 32 then ofDigits? cs else hyphenated? (unwrapped cs)

def ofText? (s : String) : Option Identifier := ofChars? s.toList

def ofJson? (v : Json) : Option Identifier := v.text?.bind ofText?

def toJson (i : Identifier) : Json := .str i.text

def compare (a b : Identifier) : Ordering := Ord.compare a.bits.toNat b.bits.toNat

end Identifier

end Clientele
