import Clientele.Proofs.Decimal.Integer

/-!
The value of a double. The place of a double on the real line, which is an integer made of its bits,
grows with its value; so doubles are compared by what they stand for.
-/
set_option autoImplicit false

namespace Clientele.Decimal

/-- The rational number m · 2^q. -/
def Binary.value (b : Binary) : ℚ := b.mantissa * 2 ^ b.exponent

def value (x : Float) : ℚ :=
  if isNegative x then -(Binary.ofFloat x).value else (Binary.ofFloat x).value

def magnitude (bits : Nat) : ℚ := (Binary.ofBits bits).value

theorem magnitude_of_zero {bits : Nat} (h : bits / 0x10000000000000 % 0x800 = 0) :
    magnitude bits = (bits % 0x10000000000000 : Nat) * 2 ^ (-1074 : Int) := by
  rw [magnitude, Binary.ofBits, if_pos h, Binary.value]

theorem magnitude_of_ne_zero {bits : Nat} (h : bits / 0x10000000000000 % 0x800 ≠ 0) :
    magnitude bits = (0x10000000000000 + bits % 0x10000000000000 : Nat) *
      2 ^ (((bits / 0x10000000000000 % 0x800 : Nat) : Int) - 1075) := by
  rw [magnitude, Binary.ofBits, if_neg h, Binary.value]

theorem magnitude_lt_succ {bits : Nat} (h : bits + 1 < 0x8000000000000000) :
    magnitude bits < magnitude (bits + 1) := by
  have hmul {m n : Nat} (hmn : m < n) (q : Int) : (m : ℚ) * 2 ^ q < n * 2 ^ q :=
    mul_lt_mul_of_pos_right (Nat.cast_lt.mpr hmn) (zpow_pos two_pos q)
  by_cases hroll : bits % 0x10000000000000 + 1 < 0x10000000000000
  · have hfield : (bits + 1) / 0x10000000000000 % 0x800 = bits / 0x10000000000000 % 0x800 := by omega
    by_cases hzero : bits / 0x10000000000000 % 0x800 = 0
    · rw [magnitude_of_zero hzero, magnitude_of_zero (hfield.trans hzero)]
      exact hmul (by omega) _
    · rw [magnitude_of_ne_zero hzero, magnitude_of_ne_zero (hfield ▸ hzero), hfield]
      exact hmul (by omega) _
  · have hfield : (bits + 1) / 0x10000000000000 % 0x800 = bits / 0x10000000000000 % 0x800 + 1 := by
      omega
    have hfraction : (bits + 1) % 0x10000000000000 = 0 := by omega
    rw [@magnitude_of_ne_zero (bits + 1) (by omega), hfield, hfraction]
    by_cases hzero : bits / 0x10000000000000 % 0x800 = 0
    · rw [magnitude_of_zero hzero, hzero]
      exact hmul (by omega) _
    · have hdouble : ((0x10000000000000 + 0 : Nat) : ℚ) *
          2 ^ (((bits / 0x10000000000000 % 0x800 + 1 : Nat) : Int) - 1075) =
          (0x20000000000000 : Nat) * 2 ^ (((bits / 0x10000000000000 % 0x800 : Nat) : Int) - 1075) := by
        rw [show ((bits / 0x10000000000000 % 0x800 + 1 : Nat) : Int) - 1075 =
          ((bits / 0x10000000000000 % 0x800 : Nat) : Int) - 1075 + 1 by omega,
          zpow_add_one₀ two_ne_zero]
        push_cast
        ring
      rw [magnitude_of_ne_zero hzero, hdouble]
      exact hmul (by omega) _

theorem magnitude_lt {a b : Nat} (hb : b < 0x8000000000000000) (h : a < b) :
    magnitude a < magnitude b := by
  induction b with
  | zero => cases h
  | succ b ih =>
    rcases Nat.lt_succ_iff_lt_or_eq.mp h with hlt | rfl
    · exact (ih (by omega) hlt).trans (magnitude_lt_succ hb)
    · exact magnitude_lt_succ hb

theorem magnitude_zero : magnitude 0 = 0 := by
  rw [magnitude_of_zero rfl, Nat.zero_mod, Nat.cast_zero, zero_mul]

def valueAt (z : Int) : ℚ := if z < 0 then -magnitude z.natAbs else magnitude z.natAbs

theorem magnitudeBits_lt (x : Float) : magnitudeBits x < 0x8000000000000000 :=
  Nat.mod_lt _ (by decide)

theorem natAbs_place (x : Float) : (place x).natAbs = magnitudeBits x := by
  unfold place
  split <;> omega

theorem value_eq (x : Float) : value x = valueAt (place x) := by
  rw [valueAt, natAbs_place]
  show (if isNegative x then -magnitude (magnitudeBits x) else magnitude (magnitudeBits x)) = _
  unfold place
  cases isNegative x with
  | false => rw [if_neg Bool.false_ne_true, if_neg Bool.false_ne_true, if_neg (by omega)]
  | true =>
    rw [if_pos rfl, if_pos rfl]
    by_cases hzero : magnitudeBits x = 0
    · rw [hzero, magnitude_zero]
      simp
    · rw [if_pos (by omega)]

theorem valueAt_lt {y z : Int} (hy : y.natAbs < 0x8000000000000000)
    (hz : z.natAbs < 0x8000000000000000) (h : y < z) : valueAt y < valueAt z := by
  have hnonneg (n : Nat) (hn : n < 0x8000000000000000) : 0 ≤ magnitude n := by
    rcases Nat.eq_zero_or_pos n with rfl | hpos
    · exact magnitude_zero.ge
    · exact (magnitude_zero ▸ magnitude_lt hn hpos).le
  unfold valueAt
  by_cases hneg : y < 0
  · rw [if_pos hneg]
    by_cases hneg' : z < 0
    · rw [if_pos hneg']
      exact neg_lt_neg (magnitude_lt hy (by omega))
    · rw [if_neg hneg']
      have hpos : 0 < magnitude y.natAbs := magnitude_zero ▸ magnitude_lt hy (by omega)
      exact (neg_lt_zero.mpr hpos).trans_le (hnonneg _ hz)
  · rw [if_neg hneg, if_neg (by omega)]
    exact magnitude_lt hz (by omega)

variable {x y : Float}

theorem value_lt_of_place_lt (h : place x < place y) : value x < value y := by
  rw [value_eq, value_eq]
  exact valueAt_lt (natAbs_place x ▸ magnitudeBits_lt x) (natAbs_place y ▸ magnitudeBits_lt y) h

/-- Doubles are in order as their values are. -/
theorem compare_place (x y : Float) : compare (place x) (place y) = compare (value x) (value y) := by
  rcases lt_trichotomy (place x) (place y) with h | h | h
  · rw [compare_lt_iff_lt.mpr h, compare_lt_iff_lt.mpr (value_lt_of_place_lt h)]
  · rw [value_eq, value_eq, h, compare_eq_iff_eq.mpr rfl, compare_eq_iff_eq.mpr rfl]
  · rw [compare_gt_iff_gt.mpr h, compare_gt_iff_gt.mpr (value_lt_of_place_lt h)]

open Float.Model.UnpackedFloat (Sign)

theorem value_doubleOf {m : Nat} (hm : IsFull m) {k : Int} (hk : -1074 ≤ k) (hk' : k ≤ 971)
    (sign : Sign) : value (doubleOf sign m k hm.pos) = (sign.apply m : Int) * 2 ^ k := by
  obtain ⟨hmantissa, hexponent⟩ := binary_doubleOf hm hk hk' sign
  rw [value, isNegative_doubleOf hm hk hk', Binary.value, hmantissa, hexponent]
  cases sign with
  | negative => rw [if_pos (by decide), Sign.apply, Int.cast_neg, Int.cast_natCast, neg_mul]
  | positive => rw [if_neg (by decide), Sign.apply, Int.cast_natCast]

theorem zpow_eq_div (k : Int) : (2 : ℚ) ^ k = 2 ^ k.toNat / 2 ^ (-k).toNat := by
  have hk : k = (k.toNat : Int) - ((-k).toNat : Int) := by omega
  conv_lhs => rw [hk]
  rw [zpow_sub₀ two_ne_zero, zpow_natCast, zpow_natCast]

theorem value_ofInt {n : Int} (h : IsExact n.natAbs) (hlt : n.natAbs ≤ 2 ^ 64) :
    value (Float.ofInt n) = n := by
  rcases Nat.eq_zero_or_pos n.natAbs with hzero | hpos
  · obtain rfl := Int.natAbs_eq_zero.mp hzero
    have hplace : place (Float.ofInt 0) = 0 := by decide +kernel
    rw [value_eq, hplace, valueAt, if_neg (by decide), Int.natAbs_zero, magnitude_zero, Int.cast_zero]
  · obtain ⟨m, k, hm, hn, hk⟩ := h.exists_full hpos
    have hlog : n.natAbs.log2 < 65 := (Nat.log2_lt hpos.ne').mpr (by omega)
    have hk₁ : -1074 ≤ k := by omega
    have hk₂ : k ≤ 971 := by omega
    have hvalue : (n.natAbs : ℚ) = m * 2 ^ k := by
      have hcast : (n.natAbs : ℚ) * 2 ^ (-k).toNat = m * 2 ^ k.toNat := by exact_mod_cast hn
      rw [zpow_eq_div, ← mul_div_assoc, ← hcast, mul_div_cancel_right₀]
      exact pow_ne_zero _ two_ne_zero
    have hdouble := ofNat_exact hm hk₁ hk₂ hn
    cases n with
    | ofNat n =>
      show value (Float.ofNat n) = _
      rw [Int.natAbs_ofNat'] at hdouble hvalue
      rw [hdouble, value_doubleOf hm hk₁ hk₂, Sign.apply]
      simpa using hvalue.symm
    | negSucc n =>
      show value (Float.neg (Float.ofNat (n + 1))) = _
      rw [Int.natAbs_negSucc] at hdouble hvalue
      rw [hdouble, neg_doubleOf hm hk₁ hk₂, value_doubleOf hm hk₁ hk₂, Sign.apply, Int.cast_neg,
        neg_mul, Int.cast_natCast, ← hvalue, Int.negSucc_eq]
      push_cast
      rfl

theorem mantissa_lt (bits : Nat) : (Binary.ofBits bits).mantissa < 2 ^ 53 := by
  unfold Binary.ofBits
  simp only
  split <;> simp only <;> omega

theorem isExact_of_value {x : Float} {n : Int} (h : value x = n) : IsExact n.natAbs := by
  have hmantissa := mantissa_lt (magnitudeBits x)
  have habs : (Binary.ofFloat x).value = n.natAbs := by
    have hnonneg : 0 ≤ (Binary.ofFloat x).value :=
      mul_nonneg (Nat.cast_nonneg _) (zpow_nonneg two_pos.le _)
    have hvalue : |value x| = (Binary.ofFloat x).value := by
      unfold value
      split
      · rw [abs_neg, abs_of_nonneg hnonneg]
      · rw [abs_of_nonneg hnonneg]
    rw [← hvalue, h, Nat.cast_natAbs, Int.cast_abs]
  rw [Binary.value, zpow_eq_div, ← mul_div_assoc, div_eq_iff (pow_ne_zero _ two_ne_zero)] at habs
  have hnat : (Binary.ofFloat x).mantissa * 2 ^ (Binary.ofFloat x).exponent.toNat =
      n.natAbs * 2 ^ (-(Binary.ofFloat x).exponent).toNat := by exact_mod_cast habs
  by_cases hexponent : 0 ≤ (Binary.ofFloat x).exponent
  · rw [Int.toNat_of_nonpos (z := -(Binary.ofFloat x).exponent) (by omega), pow_zero, mul_one] at hnat
    exact isExact_of_mul hmantissa hnat.symm
  · rw [Int.toNat_of_nonpos (z := (Binary.ofFloat x).exponent) (by omega), pow_zero, mul_one] at hnat
    have hle := Nat.le_mul_of_pos_right n.natAbs
      (Nat.two_pow_pos (-(Binary.ofFloat x).exponent).toNat)
    exact isExact_of_le (hle.trans (hnat ▸ hmantissa.le))

end Clientele.Decimal
