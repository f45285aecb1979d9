import Clientele.Proofs.Decimal.Value

/-!
Integers as doubles, where they are rounded. An integer is converted to the double of another one:
of its leading 53 bits, rounded half to even. Rounding keeps the order of integers but may bring two
of them together, as far apart as the last of these bits is worth.
-/
set_option autoImplicit false

namespace Clientele.Decimal

open Float.Model (Format UnpackedFloat totalExponent)
open Float.Model.UnpackedFloat

/-- How many units there are in a number, rounded half to even. -/
def halfEven (n unit : Nat) : Nat :=
  if 2 * (n % unit) < unit then n / unit
  else if 2 * (n % unit) = unit then n / unit + n / unit % 2
  else n / unit + 1

/-- What the last of the leading 53 bits of a number is worth. -/
def lastBit (n : Nat) : Nat := 2 ^ (n.log2 - 52)

def leading (n : Nat) : Nat := halfEven n (lastBit n) * lastBit n

section Units

variable {n n' unit : Nat}

theorem halfEven_mul (q : Nat) (h : 0 < unit) : halfEven (q * unit) unit = q := by
  rw [halfEven, Nat.mul_mod_left, Nat.mul_div_cancel _ h, if_pos (by omega)]

theorem div_le_halfEven (n unit : Nat) : n / unit ≤ halfEven n unit := by
  unfold halfEven
  split
  · exact Nat.le_refl _
  · split <;> omega

theorem halfEven_le_succ (n unit : Nat) : halfEven n unit ≤ n / unit + 1 := by
  unfold halfEven
  split
  · omega
  · split <;> omega

theorem halfEven_mono (h : n ≤ n') : halfEven n unit ≤ halfEven n' unit := by
  rcases Nat.lt_or_eq_of_le (Nat.div_le_div_right (c := unit) h) with hlt | heq
  · exact (halfEven_le_succ n unit).trans (Nat.le_trans hlt (div_le_halfEven n' unit))
  · have hmod : n % unit ≤ n' % unit := by
      have hn := Nat.div_add_mod n unit
      have hn' := Nat.div_add_mod n' unit
      rw [heq] at hn
      omega
    unfold halfEven
    rw [heq]
    split
    · split
      · exact Nat.le_refl _
      · split <;> omega
    · split
      · rw [if_neg (by omega)]
        split <;> omega
      · rw [if_neg (by omega), if_neg (by omega)]

theorem halfEven_near (h : 0 < unit) :
    2 * n ≤ 2 * (halfEven n unit * unit) + unit ∧ 2 * (halfEven n unit * unit) ≤ 2 * n + unit := by
  have hn := Nat.div_add_mod' n unit
  have hlt := Nat.mod_lt n h
  have hsucc : (n / unit + 1) * unit = n / unit * unit + unit := Nat.succ_mul _ _
  unfold halfEven
  split
  · omega
  · split
    · rcases Nat.mod_two_eq_zero_or_one (n / unit) with heven | hodd
      · rw [heven, Nat.add_zero]
        omega
      · rw [hodd]
        omega
    · omega

end Units

section Leading

variable {m n : Nat}

theorem lastBit_pos (n : Nat) : 0 < lastBit n := Nat.two_pow_pos _

theorem isExact_iff_dvd : IsExact n ↔ lastBit n ∣ n := .rfl

theorem leading_of_isExact (h : IsExact n) : leading n = n := by
  obtain ⟨q, hq⟩ := exists_eq_mul_left_of_dvd (isExact_iff_dvd.mp h)
  have hunits : halfEven n (lastBit n) = q := by
    have hpos := lastBit_pos n
    generalize lastBit n = unit at hq hpos ⊢
    rw [hq]
    exact halfEven_mul q hpos
  rw [leading, hunits, ← hq]

theorem leading_of_le (h : n ≤ 2 ^ 53) : leading n = n := leading_of_isExact (isExact_of_le h)

theorem halfEven_lastBit (h : 2 ^ 53 ≤ n) :
    2 ^ 52 ≤ halfEven n (lastBit n) ∧ halfEven n (lastBit n) ≤ 2 ^ 53 := by
  have hne : n ≠ 0 := by omega
  have hlog : 53 ≤ n.log2 := (Nat.le_log2 hne).mpr h
  have hlower : 2 ^ 52 * lastBit n ≤ n := by
    rw [lastBit, ← Nat.pow_add, Nat.add_sub_cancel' (by omega)]
    exact Nat.log2_self_le hne
  have hupper : n ≤ 2 ^ 53 * lastBit n := by
    rw [lastBit, ← Nat.pow_add, show 53 + (n.log2 - 52) = n.log2 + 1 by omega]
    exact Nat.lt_log2_self.le
  have hpos := lastBit_pos n
  exact ⟨(halfEven_mul _ hpos).symm.le.trans (halfEven_mono hlower),
    (halfEven_mono hupper).trans (halfEven_mul _ hpos).le⟩

theorem isExact_leading (n : Nat) : IsExact (leading n) := by
  rcases Nat.lt_or_ge n (2 ^ 53) with hlt | hge
  · rw [leading_of_le hlt.le]
    exact isExact_of_le hlt.le
  · rcases Nat.lt_or_eq_of_le (halfEven_lastBit hge).2 with hlt | heq
    · exact isExact_of_mul hlt rfl
    · refine isExact_of_mul (m := 1) (e := 53 + (n.log2 - 52)) (by decide) ?_
      rw [leading, heq, lastBit, ← Nat.pow_add, Nat.one_mul]

theorem leading_between (h : n ≠ 0) : 2 ^ n.log2 ≤ leading n ∧ leading n ≤ 2 ^ (n.log2 + 1) := by
  have hself := Nat.log2_self_le h
  have hlt := Nat.lt_log2_self (n := n)
  rcases Nat.lt_or_ge n (2 ^ 53) with hsmall | hge
  · rw [leading_of_le hsmall.le]
    exact ⟨hself, hlt.le⟩
  · have hlog : 53 ≤ n.log2 := (Nat.le_log2 h).mpr hge
    obtain ⟨hlower, hupper⟩ := halfEven_lastBit hge
    constructor
    · calc 2 ^ n.log2 = 2 ^ 52 * lastBit n := by
            rw [lastBit, ← Nat.pow_add, Nat.add_sub_cancel' (by omega)]
        _ ≤ leading n := Nat.mul_le_mul_right _ hlower
    · calc leading n ≤ 2 ^ 53 * lastBit n := Nat.mul_le_mul_right _ hupper
        _ = 2 ^ (n.log2 + 1) := by
            rw [lastBit, ← Nat.pow_add, show 53 + (n.log2 - 52) = n.log2 + 1 by omega]

theorem leading_mono (h : m ≤ n) : leading m ≤ leading n := by
  rcases Nat.eq_zero_or_pos m with rfl | hpos
  · rw [leading_of_le (Nat.zero_le _)]
    exact Nat.zero_le _
  · have hm : m ≠ 0 := hpos.ne'
    have hn : n ≠ 0 := (hpos.trans_le h).ne'
    have hlog : m.log2 ≤ n.log2 := (Nat.le_log2 hn).mpr ((Nat.log2_self_le hm).trans h)
    rcases Nat.lt_or_eq_of_le hlog with hlt | heq
    · exact (leading_between hm).2.trans
        ((Nat.pow_le_pow_right (by decide) hlt).trans (leading_between hn).1)
    · have hbit : lastBit m = lastBit n := by rw [lastBit, heq, lastBit]
      rw [leading, leading, hbit]
      exact Nat.mul_le_mul_right _ (halfEven_mono h)

end Leading

section Conversion

/-- What is left of a number after some of its bits have been shifted out: the number of units, and
of the rest whether it is half a unit at least, and whether it is neither nothing nor half a unit.
-/
structure IsShifted (m s : Nat) (e : ExtendedMantissa) : Prop where
  mantissa : e.mantissa = m / 2 ^ s
  roundBit : e.roundBit = true ↔ 2 ^ s ≤ 2 * (m % 2 ^ s)
  stickyBit : e.stickyBit = true ↔ 2 * (m % 2 ^ s) ≠ 0 ∧ 2 * (m % 2 ^ s) ≠ 2 ^ s

namespace IsShifted

variable {m s : Nat} {e : ExtendedMantissa}

theorem zero (m : Nat) : IsShifted m 0 ⟨m, false, false⟩ where
  mantissa := by simp
  roundBit := by simp [Nat.mod_one]
  stickyBit := by simp [Nat.mod_one]

theorem succ (h : IsShifted m s e) : IsShifted m (s + 1) e.shiftRightOne := by
  have hpos := Nat.two_pow_pos s
  have hlt := Nat.mod_lt m hpos
  have hmod : m % 2 ^ (s + 1) = m % 2 ^ s + 2 ^ s * (m / 2 ^ s % 2) := by
    rw [Nat.pow_succ, Nat.mod_mul]
  have hround := h.roundBit
  have hsticky := h.stickyBit
  refine ⟨?_, ?_, ?_⟩
  · simp only [ExtendedMantissa.shiftRightOne]
    rw [h.mantissa, Nat.div_div_eq_div_mul, Nat.pow_succ]
  · simp only [ExtendedMantissa.shiftRightOne, bne_iff_ne]
    rw [h.mantissa, hmod, Nat.pow_succ]
    rcases Nat.mod_two_eq_zero_or_one (m / 2 ^ s) with hbit | hbit <;> rw [hbit] <;> omega
  · simp only [ExtendedMantissa.shiftRightOne, Bool.or_eq_true]
    rw [hround, hsticky, hmod, Nat.pow_succ]
    rcases Nat.mod_two_eq_zero_or_one (m / 2 ^ s) with hbit | hbit <;> rw [hbit] <;> omega

theorem roundedMantissa (h : IsShifted m s e) : e.roundedMantissa = halfEven m (2 ^ s) := by
  obtain ⟨hmantissa, hround, hsticky⟩ := h
  have hpos := Nat.two_pow_pos s
  obtain ⟨q, roundBit, stickyBit⟩ := e
  simp only at hmantissa hround hsticky
  subst hmantissa
  unfold halfEven
  cases roundBit with
  | false =>
    -- less than half a unit is dropped, whatever it is
    rw [if_pos (by simpa using hround)]
    cases stickyBit <;> rfl
  | true =>
    have hhalf : 2 ^ s ≤ 2 * (m % 2 ^ s) := hround.mp rfl
    rw [if_neg (by omega)]
    cases stickyBit with
    | false =>
      rw [if_pos (by by_contra hne; exact absurd (hsticky.mpr ⟨by omega, hne⟩) nofun)]
      rfl
    | true =>
      rw [if_neg (hsticky.mp rfl).2]
      rfl

end IsShifted

theorem isShifted_shiftRight (m s : Nat) :
    IsShifted m s ((⟨m, false, false⟩ : ExtendedMantissa) >>> s) := by
  induction s with
  | zero => exact .zero m
  | succ s ih => exact ih.succ

theorem shiftRight_add (e : ExtendedMantissa) (s t : Nat) : e >>> (s + t) = (e >>> s) >>> t := by
  induction t with
  | zero => rfl
  | succ t ih => exact congrArg ExtendedMantissa.shiftRightOne ih

variable {n : Nat}

theorem exists_full_halfEven (h : 2 ^ 53 ≤ n) :
    ∃ m s, IsFull m ∧ s ≤ 1 ∧ halfEven n (lastBit n) = m * 2 ^ s := by
  obtain ⟨hlower, hupper⟩ := halfEven_lastBit h
  rcases Nat.lt_or_eq_of_le hupper with hlt | heq
  · exact ⟨_, 0, ⟨hlower, hlt⟩, by decide, by rw [Nat.pow_zero, Nat.mul_one]⟩
  · exact ⟨2 ^ 52, 1, ⟨Nat.le_refl _, by decide⟩, Nat.le_refl _, heq⟩

theorem shiftToTargetExponent_leading (h : 2 ^ 53 ≤ n) :
    ∃ e, shiftToTargetExponent .binary64 (n * 2 ^ 53) (-53) .exact = (e, (n.log2 : Int) - 52) ∧
      e.roundedMantissa = halfEven n (lastBit n) := by
  have hne : n ≠ 0 := by omega
  have hlog : 53 ≤ n.log2 := (Nat.le_log2 hne).mpr h
  have htarget : Format.binary64.targetExponent (totalExponent (n * 2 ^ 53) (-53)) =
      (n.log2 : Int) - 52 := by
    rw [totalExponent, log2_mul_two_pow hne]
    show max (((n.log2 + 53 : Nat) : Int) + 1 + -53 - 53) (-1074) = _
    omega
  have hamount : ((n.log2 : Int) - 52 - -53).toNat = 53 + (n.log2 - 52) := by omega
  refine ⟨(⟨n, false, false⟩ : ExtendedMantissa) >>> (n.log2 - 52), ?_,
    (isShifted_shiftRight n _).roundedMantissa⟩
  rw [shiftToTargetExponent, htarget, shiftToExponent, hamount]
  refine Prod.ext ?_ (by simp only; omega)
  show (⟨n * 2 ^ 53, false, false⟩ : ExtendedMantissa) >>> (53 + (n.log2 - 52)) = _
  rw [shiftRight_add, shiftRight_exact]

/-- An integer is converted to the double of its leading bits. -/
theorem ofNat_leading (h : n ≤ 2 ^ 64) : Float.ofNat n = Float.ofNat (leading n) := by
  rcases Nat.lt_or_ge n (2 ^ 53) with hlt | hge
  · rw [leading_of_le hlt.le]
  · have hne : n ≠ 0 := by omega
    have hlog : 53 ≤ n.log2 := (Nat.le_log2 hne).mpr hge
    have hlog' : n.log2 < 65 := (Nat.log2_lt hne).mpr (by omega)
    obtain ⟨m, s, hm, hs, hunits⟩ := exists_full_halfEven hge
    obtain ⟨e, hshift, hrounded⟩ := shiftToTargetExponent_leading hge
    have hk : -1074 ≤ (n.log2 : Int) - 52 + s := by omega
    have hagain := shiftToTargetExponent_exact hm hk s
    rw [Int.add_sub_cancel, ← hunits] at hagain
    have hround : roundWithAccuracy .binary64 .positive (n * 2 ^ 53) (-53) .exact =
        .finite .positive m ((n.log2 : Int) - 52 + s) hm.pos := by
      simp only [roundWithAccuracy, hshift, hrounded, hagain, dif_neg hm.pos.ne']
    have hleading : leading n * 2 ^ (-((n.log2 : Int) - 52 + s)).toNat =
        m * 2 ^ ((n.log2 : Int) - 52 + s).toNat := by
      rw [show (-((n.log2 : Int) - 52 + s)).toNat = 0 by omega,
        show ((n.log2 : Int) - 52 + s).toNat = s + (n.log2 - 52) by omega, leading, hunits, lastBit,
        Nat.pow_add]
      ring
    rw [ofNat_exact hm hk (by omega) hleading, ofNat_of_ge hge, Float.Model.ofScientific,
      ofScientific_zero (Nat.pos_of_ne_zero hne), hround]
    rfl

end Conversion

def nearest : Int → Int
  | .ofNat n => leading n
  | .negSucc n => -leading n.succ

theorem natAbs_nearest (n : Int) : (nearest n).natAbs = leading n.natAbs := by
  cases n with
  | ofNat n => rfl
  | negSucc n => exact Int.natAbs_neg _

theorem nearest_of_isExact {n : Int} (h : IsExact n.natAbs) : nearest n = n := by
  have hleading := leading_of_isExact h
  cases n with
  | ofNat n => exact congrArg Int.ofNat hleading
  | negSucc n =>
    rw [Int.natAbs_negSucc] at hleading
    rw [nearest, hleading]
    rfl

theorem nearest_mono {m n : Int} (h : m ≤ n) : nearest m ≤ nearest n := by
  cases m with
  | ofNat m =>
    cases n with
    | ofNat n => exact Int.ofNat_le.mpr (leading_mono (Int.ofNat_le.mp h))
    | negSucc n => exact absurd ((Int.natCast_nonneg m).trans h) (Int.not_le.mpr (Int.negSucc_lt_zero n))
  | negSucc m =>
    cases n with
    | ofNat n =>
      have hm := Int.natCast_nonneg (leading m.succ)
      have hn := Int.natCast_nonneg (leading n)
      simp only [nearest]
      omega
    | negSucc n =>
      have hle := leading_mono (m := n.succ) (n := m.succ) (by omega)
      simp only [nearest]
      omega

/-- Of 64 bits the last eleven may be rounded away. -/
theorem nearest_near {n : Int} (h : n.natAbs < 2 ^ 64) : n - 1024 ≤ nearest n ∧ nearest n ≤ n + 1024 := by
  have hbit : lastBit n.natAbs ≤ 2 ^ 11 := by
    refine Nat.pow_le_pow_right (by decide) ?_
    by_cases hzero : n.natAbs = 0
    · rw [hzero, Nat.log2_zero]
      decide
    · have := (Nat.log2_lt hzero).mpr h
      omega
  have hnear := halfEven_near (n := n.natAbs) (lastBit_pos n.natAbs)
  rw [← leading] at hnear
  cases n with
  | ofNat n =>
    rw [Int.natAbs_ofNat'] at hnear hbit
    simp only [nearest, Int.ofNat_eq_natCast]
    omega
  | negSucc n =>
    rw [Int.natAbs_negSucc] at hnear hbit
    simp only [nearest]
    omega

theorem value_ofInt_nearest {n : Int} (h : n.natAbs ≤ 2 ^ 64) : value (Float.ofInt n) = nearest n := by
  have hexact : IsExact (nearest n).natAbs := natAbs_nearest n ▸ isExact_leading _
  have hlt : (nearest n).natAbs ≤ 2 ^ 64 := by
    rw [natAbs_nearest, ← leading_of_isExact (n := 2 ^ 64) (by decide)]
    exact leading_mono h
  have hdouble : Float.ofInt n = Float.ofInt (nearest n) := by
    cases n with
    | ofNat n => exact ofNat_leading h
    | negSucc n =>
      have hpos : 0 < leading n.succ :=
        (Nat.two_pow_pos _).trans_le (leading_between (Nat.succ_ne_zero n)).1
      obtain ⟨k, hk⟩ := Nat.exists_eq_succ_of_ne_zero hpos.ne'
      have hsame : Float.ofNat n.succ = Float.ofNat k.succ := hk ▸ ofNat_leading h
      rw [nearest, hk]
      exact congrArg Float.neg hsame
  rw [hdouble, value_ofInt hexact hlt]

end Clientele.Decimal
