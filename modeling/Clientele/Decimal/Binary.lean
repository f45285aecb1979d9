/-!
A finite double is a sign and m · 2^q, with m and q read off its bits. Order and
conversion to an integer are exact arithmetic on these, so no rounding takes part in them.
-/
set_option autoImplicit false

namespace Clientele.Decimal

/-- The magnitude m · 2^q of a finite double. -/
structure Binary where
  mantissa : Nat
  exponent : Int
  /-- The gap to the next double below is half the gap to the one above. -/
  narrowBelow : Bool
  deriving DecidableEq, Repr

def Binary.ofBits (bits : Nat) : Binary :=
  let field : Nat := bits / 0x10000000000000 % 0x800
  let fraction : Nat := bits % 0x10000000000000
  if field = 0 then { mantissa := fraction, exponent := -1074, narrowBelow := false }
  else
    { mantissa := 0x10000000000000 + fraction, exponent := (field : Int) - 1075,
      narrowBelow := fraction == 0 && field > 1 }

def isNegative (x : Float) : Bool := 0x8000000000000000 ≤ x.toBits.toNat

/-- The bits of a double without its sign; they grow with the magnitude. -/
def magnitudeBits (x : Float) : Nat := x.toBits.toNat % 0x8000000000000000

def Binary.ofFloat (x : Float) : Binary := .ofBits (magnitudeBits x)

/-- The place of a double on the real line. Both zeros are at 0, and of two doubles that are not
NaN the smaller has the smaller place. -/
def place (x : Float) : Int :=
  if isNegative x then -(magnitudeBits x : Int) else magnitudeBits x

def Binary.toNat? (b : Binary) : Option Nat :=
  if 0 ≤ b.exponent then some (b.mantissa * Nat.pow 2 b.exponent.toNat)
  else
    let unit := Nat.pow 2 (-b.exponent).toNat
    if b.mantissa % unit = 0 then some (b.mantissa / unit) else none

def toInt? (x : Float) : Option Int :=
  (Binary.ofFloat x).toNat?.map fun n => if isNegative x then -(n : Int) else n

end Clientele.Decimal
