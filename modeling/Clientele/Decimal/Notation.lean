import Clientele.Decimal.Shortest

/-!
How a double is written in a document: plain while the leading digit stands between the fifth
decimal place and the sixteenth place before the point, with a signed exponent otherwise.
-/
set_option autoImplicit false

namespace Clientele.Decimal

def digitsOf (n : Nat) : List Char := Nat.toDigits 10 n

def zeros (n : Nat) : List Char := List.replicate n '0'

/-- Digits with the point after the first `n` of them, padded with zeros on either side, and with
at least one digit behind the point. -/
def pointed (ds : List Char) (n : Int) : List Char :=
  if n ≤ 0 then '0' :: '.' :: (zeros (-n).toNat ++ ds)
  else if ds.length ≤ n.toNat then ds ++ zeros (n.toNat - ds.length) ++ ['.', '0']
  else ds.take n.toNat ++ '.' :: ds.drop n.toNat

def scientific (ds : List Char) (e : Int) : List Char :=
  let mantissa := match ds with
    | d :: r :: rs => d :: '.' :: r :: rs
    | ds => ds
  mantissa ++ 'e' :: (if e < 0 then '-' else '+') :: digitsOf e.natAbs

def isPlain (e : Int) : Bool := -5 ≤ e && e ≤ 15

def Scaled.text (d : Scaled) : List Char :=
  let ds := digitsOf d.digits
  let leading : Int := d.exponent + ds.length - 1
  if isPlain leading then pointed ds (leading + 1) else scientific ds leading

def floatText (x : Float) : List Char :=
  let b := Binary.ofFloat x
  let body := if b.mantissa = 0 then ['0', '.', '0'] else b.shortest.text
  if isNegative x then '-' :: body else body

end Clientele.Decimal
