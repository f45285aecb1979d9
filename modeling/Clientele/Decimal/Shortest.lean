import Clientele.Decimal.Binary

/-!
The fewest decimal digits that read back as a given double, and of those the nearest.
All comparisons are between natural numbers.
-/
set_option autoImplicit false

namespace Clientele.Decimal

structure Scaled where
  digits : Nat
  exponent : Int
  deriving DecidableEq, Repr

/-- Compares a · 10^i with n · 2^j exactly. -/
def compareScaled (a : Nat) (i : Int) (n : Nat) (j : Int) : Ordering :=
  compare (a * Nat.pow 10 i.toNat * Nat.pow 2 (-j).toNat)
    (n * Nat.pow 2 j.toNat * Nat.pow 10 (-i).toNat)

/-- A decimal reads back as the double when it lies between the midpoints to both neighbours,
which count when the mantissa is even. -/
def Binary.readsBack (b : Binary) (d : Scaled) : Bool :=
  let below := if b.narrowBelow then 4 * b.mantissa - 1 else 4 * b.mantissa - 2
  let above := 4 * b.mantissa + 2
  let closed := b.mantissa % 2 == 0
  let low := compareScaled d.digits d.exponent below (b.exponent - 2)
  let high := compareScaled d.digits d.exponent above (b.exponent - 2)
  (low == .gt || (closed && low == .eq)) && (high == .lt || (closed && high == .eq))

def Binary.unitsDown (b : Binary) (e : Int) : Nat :=
  (b.mantissa * Nat.pow 2 b.exponent.toNat * Nat.pow 10 (-e).toNat) /
    (Nat.pow 2 (-b.exponent).toNat * Nat.pow 10 e.toNat)

/-- Of the two multiples of 10^e around the value, the one that reads back; of two such the
nearer, and at equal distance the one with the even last digit. -/
def Binary.onGrid (b : Binary) (e : Int) : Option Scaled :=
  let low := b.unitsDown e
  let down : Scaled := ⟨low, e⟩
  let up : Scaled := ⟨low + 1, e⟩
  match b.readsBack down, b.readsBack up with
  | true, true =>
    match compareScaled (2 * low + 1) e (2 * b.mantissa) b.exponent with
    | .gt => some down
    | .lt => some up
    | .eq => some (if low % 2 = 0 then down else up)
  | true, false => some down
  | false, true => some up
  | false, false => none

def Binary.search (b : Binary) (e : Int) : Nat → Option Scaled
  | 0 => none
  | n + 1 => (b.onGrid e).orElse fun _ => b.search (e - 1) n

/-- The power of ten just above the value, or one more. -/
def Binary.scale (b : Binary) : Int :=
  let bitLength : Int := b.exponent + (Nat.log2 b.mantissa : Int) + 1
  bitLength * 30103 / 100000 + 2

def Scaled.strip (d : Scaled) : Nat → Scaled
  | 0 => d
  | n + 1 => if d.digits ≠ 0 ∧ d.digits % 10 = 0 then Scaled.strip ⟨d.digits / 10, d.exponent + 1⟩ n else d

/-- The shortest decimal of a positive double. Twenty grids are enough: seventeen digits always
read back, and the first grid is at most two powers too coarse. -/
def Binary.shortest (b : Binary) : Scaled :=
  ((b.search (b.scale - 1) 20).getD
    ⟨b.mantissa * Nat.pow 2 b.exponent.toNat * Nat.pow 5 (-b.exponent).toNat, min b.exponent 0⟩).strip 400

end Clientele.Decimal
