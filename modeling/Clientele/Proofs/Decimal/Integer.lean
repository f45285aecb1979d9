import Mathlib
import Clientele.Decimal.Binary

/-!
Integers as doubles. An integer that is some mantissa of 53 bits times a power of two is converted
to a double without rounding: no step on the way, be it the rounding to 53 bits, the product with
one or the packing into bits, drops anything.
-/
set_option autoImplicit false

namespace Clientele.Decimal

open Float.Model (Format UnpackedFloat totalExponent)
open Float.Model.UnpackedFloat

structure IsFull (m : Nat) : Prop where
  lower : 2 ^ 52 ≤ m
  upper : m < 2 ^ 53

theorem log2_mul_two_pow {n : Nat} (hn : n ≠ 0) (s : Nat) : (n * 2 ^ s).log2 = n.log2 + s := by
  induction s with
  | zero => rw [Nat.pow_zero, Nat.mul_one, Nat.add_zero]
  | succ s ih =>
    have hne : n * 2 ^ s ≠ 0 := Nat.mul_ne_zero hn (Nat.ne_of_gt (Nat.two_pow_pos s))
    rw [Nat.pow_succ, ← Nat.mul_assoc, Nat.mul_comm _ 2, Nat.log2_two_mul hne, ih, Nat.add_assoc]

namespace IsFull

variable {m : Nat}

theorem pos (hm : IsFull m) : 0 < m := Nat.lt_of_lt_of_le (by decide) hm.lower

theorem pos_of_eq (hm : IsFull m) {n d e : Nat} (hn : n * 2 ^ d = m * 2 ^ e) : 0 < n :=
  Nat.pos_of_mul_pos_right (hn ▸ Nat.mul_pos hm.pos (Nat.two_pow_pos e))

theorem log2_eq (hm : IsFull m) : m.log2 = 52 :=
  (Nat.log2_eq_iff (Nat.ne_of_gt hm.pos)).mpr ⟨hm.lower, hm.upper⟩

end IsFull

theorem shiftRight_exact (m s : Nat) :
    (⟨m * 2 ^ s, false, false⟩ : ExtendedMantissa) >>> s = ⟨m, false, false⟩ := by
  show s.repeat ExtendedMantissa.shiftRightOne ⟨m * 2 ^ s, false, false⟩ = _
  induction s generalizing m with
  | zero => simp [Nat.repeat]
  | succ s ih =>
    have hdouble : m * 2 ^ (s + 1) = (2 * m) * 2 ^ s := by
      rw [Nat.pow_succ]
      ac_rfl
    rw [Nat.repeat, hdouble, ih]
    simp [ExtendedMantissa.shiftRightOne]

section Rounding

variable {m : Nat} (hm : IsFull m) {k : Int} (hk : -1074 ≤ k)
include hm hk

theorem targetExponent_mul (s : Nat) :
    Format.binary64.targetExponent (totalExponent (m * 2 ^ s) (k - s)) = k := by
  rw [totalExponent, log2_mul_two_pow (Nat.ne_of_gt hm.pos), hm.log2_eq]
  show max (((52 + s : Nat) : Int) + 1 + (k - s) - 53) (-1074) = k
  omega

theorem shiftToTargetExponent_exact (s : Nat) :
    shiftToTargetExponent .binary64 (m * 2 ^ s) (k - s) .exact = (⟨m, false, false⟩, k) := by
  have hshift : (k - (k - s)).toNat = s := by omega
  rw [shiftToTargetExponent, targetExponent_mul hm hk s, shiftToExponent, hshift]
  exact Prod.ext (shiftRight_exact m s) (by simp)

theorem roundWithAccuracy_exact (s : Nat) (sign : Sign) :
    roundWithAccuracy .binary64 sign (m * 2 ^ s) (k - s) .exact = .finite sign m k hm.pos := by
  have hagain := shiftToTargetExponent_exact hm hk 0
  rw [Nat.pow_zero, Nat.mul_one, Int.natCast_zero, Int.sub_zero] at hagain
  have hrounded : (⟨m, false, false⟩ : ExtendedMantissa).roundedMantissa = m := rfl
  simp only [roundWithAccuracy, shiftToTargetExponent_exact hm hk s, hrounded, hagain,
    dif_neg (Nat.ne_of_gt hm.pos)]

theorem round_exact {n : Nat} (hn : n * 2 ^ (-k).toNat = m * 2 ^ k.toNat) (sign : Sign) :
    UnpackedFloat.round .binary64 sign n 0 = .finite sign m k hm.pos := by
  have hne : n ≠ 0 := Nat.ne_of_gt (hm.pos_of_eq hn)
  have hlog := congrArg Nat.log2 hn
  rw [log2_mul_two_pow hne, log2_mul_two_pow (Nat.ne_of_gt hm.pos), hm.log2_eq] at hlog
  have htarget : Format.binary64.targetExponent (totalExponent n 0) = k := by
    show max ((n.log2 : Int) + 1 + 0 - 53) (-1074) = k
    omega
  have hexponent : (0 : Int) - ((0 - k).toNat : Nat) = k - (k.toNat : Nat) := by omega
  have hshift : n <<< (0 - k).toNat = m * 2 ^ k.toNat := by
    rw [Int.zero_sub, Nat.shiftLeft_eq, hn]
  simp only [UnpackedFloat.round, htarget, decreaseExponent, hexponent, hshift]
  exact roundWithAccuracy_exact hm hk k.toNat sign

end Rounding

@[simp] theorem unpackSign_packComponents {spec : Format} {sign : Sign}
    {exponent : BitVec spec.exponentBits} {mantissa : BitVec spec.mantissaBitsWithoutImplicit} :
    unpackSign (packComponents spec sign exponent mantissa) = sign.toBitVec := by
  ext i hi
  obtain rfl : i = 0 := by omega
  simp [unpackSign, packComponents, BitVec.getLsbD_append, BitVec.getElem_append]

theorem ofBitVec_toBitVec (sign : Sign) : Sign.ofBitVec sign.toBitVec = sign := by
  cases sign <;> rfl

theorem toNat_append_eq {v w : Nat} (x : BitVec v) (y : BitVec w) :
    (x ++ y).toNat = x.toNat * 2 ^ w + y.toNat := by
  rw [BitVec.toNat_append, ← Nat.shiftLeft_add_eq_or_of_lt y.isLt, Nat.shiftLeft_eq]

def doubleOf (sign : Sign) (m : Nat) (k : Int) (hm : 0 < m) : Float :=
  .ofModel (.pack (.finite sign m k hm))

theorem unpack_one : (Float.ofBits 0x3FF0000000000000).toModel.unpack =
    .finite .positive (2 ^ 52) (-52) (by decide) := rfl

section Packing

variable {m : Nat} (hm : IsFull m) {k : Int} (hk : -1074 ≤ k) (hk' : k ≤ 971)
  (sign : Sign)
include hk hk'

theorem pack_finite :
    pack .binary64 (.finite sign m k hm.pos) =
      packComponents .binary64 sign (.ofNat _ (k + 1075).toNat) (.ofNat _ m) := by
  have hbiased : (k + Format.binary64.exponentBias + Format.binary64.mantissaBitsWithoutImplicit).toNat
      = (k + 1075).toNat := by
    show (k + (1023 : Nat) + (52 : Nat)).toNat = _
    omega
  simp only [pack, hm.log2_eq, hbiased]
  rw [if_neg (by show ¬2048 ≤ _; omega), if_pos (by decide)]

theorem unpack_pack_finite :
    unpack .binary64 (pack .binary64 (.finite sign m k hm.pos)) = .finite sign m k hm.pos := by
  have hlower := hm.lower
  have hupper := hm.upper
  have hexponent : (BitVec.ofNat 11 (k + 1075).toNat).toNat = (k + 1075).toNat := by
    rw [BitVec.toNat_ofNat]
    omega
  have hmantissa : (1#1 ++ BitVec.ofNat 52 m).toNat = m := by
    rw [toNat_append_eq, BitVec.toNat_ofNat, BitVec.toNat_ofNat]
    omega
  -- neither the exponent of the infinities nor that of the subnormal numbers
  have hinner {b : BitVec 11} (hb : b.toNat = 0 ∨ b.toNat = 2047) :
      BitVec.ofNat 11 (k + 1075).toNat ≠ b := by
    rintro rfl
    rw [hexponent] at hb
    omega
  rw [pack_finite hm hk hk']
  simp only [unpack, unpackMantissa_packComponents, unpackExponent_packComponents,
    unpackSign_packComponents, ofBitVec_toBitVec]
  rw [if_neg (hinner (.inr rfl)), if_neg (hinner (.inl rfl))]
  have hk'' : ((k + 1075).toNat : Int) - (Format.binary64.exponentBias +
      Format.binary64.mantissaBitsWithoutImplicit : Nat) = k := by
    show ((k + 1075).toNat : Int) - (1023 + 52 : Nat) = k
    omega
  simp only [hmantissa, hexponent]
  congr 1

theorem unpack_doubleOf :
    (doubleOf sign m k hm.pos).toModel.unpack = .finite sign m k hm.pos := by
  rw [doubleOf, Float.Model.unpack, Float.Model.pack]
  exact unpack_pack_finite hm hk hk' sign

theorem neg_doubleOf :
    Float.neg (doubleOf .positive m k hm.pos) = doubleOf .negative m k hm.pos := by
  have hneg : (doubleOf .positive m k hm.pos).toModel.unpack.neg = .finite .negative m k hm.pos := by
    rw [unpack_doubleOf hm hk hk']
    rfl
  exact congrArg (fun f => Float.ofModel (.pack f)) hneg

theorem toBits_doubleOf :
    (doubleOf sign m k hm.pos).toBits.toNat =
      sign.toBitVec.toNat * 2 ^ 63 + ((k + 1075).toNat * 2 ^ 52 + (m - 2 ^ 52)) := by
  have hlower := hm.lower
  have hupper := hm.upper
  show (pack .binary64 (.finite sign m k hm.pos)).toNat = _
  rw [pack_finite hm hk hk', packComponents, toNat_append_eq, toNat_append_eq, BitVec.toNat_ofNat,
    BitVec.toNat_ofNat]
  show (_ * 2 ^ 11 + _ % 2 ^ 11) * 2 ^ 52 + _ % 2 ^ 52 = _
  omega

theorem isNegative_doubleOf :
    isNegative (doubleOf sign m k hm.pos) = (sign == .negative) := by
  have hlower := hm.lower
  have hupper := hm.upper
  rw [isNegative, toBits_doubleOf hm hk hk']
  cases sign
  · exact decide_eq_true (by simp [Sign.toBitVec])
  · exact decide_eq_false (by simp [Sign.toBitVec]; omega)

theorem binary_doubleOf :
    (Binary.ofFloat (doubleOf sign m k hm.pos)).mantissa = m ∧
      (Binary.ofFloat (doubleOf sign m k hm.pos)).exponent = k := by
  have hlower := hm.lower
  have hupper := hm.upper
  have hsign : sign.toBitVec.toNat < 2 := sign.toBitVec.isLt
  have hbits : magnitudeBits (doubleOf sign m k hm.pos) =
      (k + 1075).toNat * 2 ^ 52 + (m - 2 ^ 52) := by
    rw [magnitudeBits, toBits_doubleOf hm hk hk']
    omega
  have hfield : magnitudeBits (doubleOf sign m k hm.pos) / 0x10000000000000 % 0x800 =
      (k + 1075).toNat := by omega
  have hfraction : magnitudeBits (doubleOf sign m k hm.pos) % 0x10000000000000 = m - 2 ^ 52 := by
    omega
  simp only [Binary.ofFloat, Binary.ofBits, hfield, hfraction]
  rw [if_neg (by omega)]
  exact ⟨by simp only; omega, by simp only; omega⟩

theorem doubleOf_mul_one :
    doubleOf .positive m k hm.pos * Float.ofBits 0x3FF0000000000000 = doubleOf .positive m k hm.pos := by
  have hmul : mul .binary64 (doubleOf .positive m k hm.pos).toModel.unpack
      (Float.ofBits 0x3FF0000000000000).toModel.unpack = .finite .positive m k hm.pos := by
    rw [unpack_doubleOf hm hk hk', unpack_one]
    exact roundWithAccuracy_exact hm hk 52 .positive
  exact congrArg (fun f => Float.ofModel (.pack f)) hmul

end Packing

/-- No more than 53 bits lie between the first and the last that is set. -/
def IsExact (n : Nat) : Prop := 2 ^ (n.log2 - 52) ∣ n

instance (n : Nat) : Decidable (IsExact n) := inferInstanceAs (Decidable (_ ∣ _))

theorem isExact_of_le {n : Nat} (h : n ≤ 2 ^ 53) : IsExact n := by
  rcases Nat.lt_or_eq_of_le h with hlt | rfl
  · have hlog : n.log2 - 52 = 0 := by
      by_cases hzero : n = 0
      · rw [hzero, Nat.log2_zero]
      · have := (Nat.log2_lt hzero).mpr hlt
        omega
    rw [IsExact, hlog]
    exact Nat.one_dvd n
  · decide

theorem isExact_of_mul {m n e : Nat} (hm : m < 2 ^ 53) (h : n = m * 2 ^ e) : IsExact n := by
  by_cases hzero : m = 0
  · rw [h, hzero, Nat.zero_mul]
    decide
  · have hlog : n.log2 = m.log2 + e := by rw [h, log2_mul_two_pow hzero]
    have hle : m.log2 < 53 := (Nat.log2_lt hzero).mpr hm
    have hdvd : 2 ^ (n.log2 - 52) ∣ 2 ^ e := Nat.pow_dvd_pow 2 (by omega)
    exact Nat.dvd_trans hdvd (h ▸ Nat.dvd_mul_left (2 ^ e) m)

/-- An integer that is exact has a mantissa of full width. -/
theorem IsExact.exists_full {n : Nat} (h : IsExact n) (hpos : 0 < n) :
    ∃ m k, IsFull m ∧ n * 2 ^ (-k).toNat = m * 2 ^ k.toNat ∧ k = (n.log2 : Int) - 52 := by
  have hne : n ≠ 0 := Nat.ne_of_gt hpos
  have hlower := Nat.log2_self_le hne
  have hupper := Nat.lt_log2_self (n := n)
  rcases Nat.le_total n.log2 52 with hle | hge
  · refine ⟨n * 2 ^ (52 - n.log2), n.log2 - 52, ⟨?_, ?_⟩, ?_, rfl⟩
    · have := Nat.mul_le_mul_right (2 ^ (52 - n.log2)) hlower
      rwa [← Nat.pow_add, Nat.add_sub_cancel' hle] at this
    · have := Nat.mul_lt_mul_of_pos_right hupper (Nat.two_pow_pos (52 - n.log2))
      rwa [← Nat.pow_add, show n.log2 + 1 + (52 - n.log2) = 53 by omega] at this
    · rw [show (-((n.log2 : Int) - 52)).toNat = 52 - n.log2 by omega,
        show ((n.log2 : Int) - 52).toNat = 0 by omega, Nat.pow_zero, Nat.mul_one]
  · obtain ⟨m, hm⟩ := h
    rw [Nat.mul_comm] at hm
    have hpow := Nat.two_pow_pos (n.log2 - 52)
    refine ⟨m, n.log2 - 52, ⟨?_, ?_⟩, ?_, rfl⟩
    · refine Nat.le_of_mul_le_mul_right ?_ hpow
      rwa [← hm, ← Nat.pow_add, Nat.add_sub_cancel' hge]
    · refine Nat.lt_of_mul_lt_mul_right (a := 2 ^ (n.log2 - 52)) ?_
      rwa [← hm, ← Nat.pow_add, show 53 + (n.log2 - 52) = n.log2 + 1 by omega]
    · rw [show (-((n.log2 : Int) - 52)).toNat = 0 by omega,
        show ((n.log2 : Int) - 52).toNat = n.log2 - 52 by omega, Nat.pow_zero, Nat.mul_one]
      exact hm

theorem ofNat_of_lt {n : Nat} (hn : n < 2 ^ 53) :
    Float.ofNat n = n.toUInt64.toFloat * Float.ofBits 0x3FF0000000000000 :=
  dif_pos ⟨hn, by decide⟩

theorem ofNat_of_ge {n : Nat} (hn : 2 ^ 53 ≤ n) :
    Float.ofNat n = .ofModel (.ofScientific n 0) :=
  dif_neg fun h => absurd h.1 (Nat.not_lt.mpr hn)

theorem toFloat_toUInt64 {n : Nat} (hn : n < 2 ^ 53) (hpos : 0 < n) :
    n.toUInt64.toFloat = .ofModel (.pack (UnpackedFloat.round .binary64 .positive n 0)) := by
  have hn' : n.toUInt64.toNat = n := Nat.mod_eq_of_lt (by omega)
  have hcompare : compare (n : Int) 0 = .gt := Int.compare_eq_gt.mpr (by omega)
  show Float.ofModel (.pack (UnpackedFloat.normalize .binary64 (n.toUInt64.toNat : Int) 0 .positive)) = _
  rw [hn', UnpackedFloat.normalize, hcompare]
  rfl

theorem ofScientific_zero {n : Nat} (hpos : 0 < n) :
    UnpackedFloat.ofScientific .binary64 n 0 =
      roundWithAccuracy .binary64 .positive (n * 2 ^ 53) (-53) .exact := by
  rw [UnpackedFloat.ofScientific, dif_neg (Nat.ne_of_gt hpos), if_neg (by decide),
    if_neg (by show ¬(0 : Int) < -(2048 + (n.log2 : Int)); omega), if_pos (by decide)]
  show roundWithAccuracy .binary64 .positive (n <<< 53 * 1) (-53 + 0) .exact = _
  rw [Nat.shiftLeft_eq, Nat.mul_one, Int.add_zero]

theorem ofNat_exact {n m : Nat} {k : Int} (hm : IsFull m) (hk : -1074 ≤ k) (hk' : k ≤ 971)
    (hn : n * 2 ^ (-k).toNat = m * 2 ^ k.toNat) :
    Float.ofNat n = doubleOf .positive m k hm.pos := by
  have hpos : 0 < n := hm.pos_of_eq hn
  by_cases hlt : n < 2 ^ 53
  · rw [ofNat_of_lt hlt, toFloat_toUInt64 hlt hpos, round_exact hm hk hn]
    exact doubleOf_mul_one hm hk hk'
  · -- a mantissa of full width is left only after some bits of `n`
    have hge : 2 ^ 53 ≤ n := Nat.not_lt.mp hlt
    have hk₀ : 0 ≤ k := by
      refine Int.not_lt.mp fun hneg => ?_
      have hle := Nat.le_mul_of_pos_right n (Nat.two_pow_pos (-k).toNat)
      have hupper := hm.upper
      rw [hn, Int.toNat_of_nonpos (z := k) (by omega), Nat.pow_zero, Nat.mul_one] at hle
      omega
    have hn' : n * 2 ^ 53 = m * 2 ^ (k.toNat + 53) := by
      rw [Int.toNat_of_nonpos (z := -k) (by omega), Nat.pow_zero, Nat.mul_one] at hn
      rw [hn, Nat.pow_add, Nat.mul_assoc]
    have hexponent : (-53 : Int) = k - (k.toNat + 53 : Nat) := by omega
    rw [ofNat_of_ge hge, Float.Model.ofScientific, ofScientific_zero hpos, hn', hexponent,
      roundWithAccuracy_exact hm hk]
    rfl

end Clientele.Decimal
