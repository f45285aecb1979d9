import Clientele.Time.Stamp
import Clientele.Proofs.Time.Calendar

/-!
Stamps are read back: by the strict reader with three places, by the loose one with as few places as
are needed.
-/
set_option autoImplicit false

namespace Clientele.Time

theorem length_padded {width n : Nat} (hwidth : 0 < width) (h : n < Nat.pow 10 width) :
    (padded width n).length = width := by
  have hle : (Nat.toDigits 10 n).length ≤ width :=
    (Nat.length_toDigits_le_iff (by decide) hwidth).mpr h
  simp only [padded, List.length_append, List.length_replicate]
  omega

theorem isDigit_of_mem_padded {width n : Nat} {c : Char} (h : c ∈ padded width n) :
    c.isDigit = true := by
  rcases List.mem_append.mp h with h | h
  · rw [(List.mem_replicate.mp h).2]
    rfl
  · exact Nat.isDigit_of_mem_toDigits (by decide) (by decide) h

theorem value_padded (width n : Nat) :
    (padded width n).foldl (fun n c => 10 * n + (c.toNat - '0'.toNat)) 0 = n := by
  have h := Nat.ofDigitChars_append (b := 10) (l := List.replicate (width - (Nat.toDigits 10 n).length) '0')
    (m := Nat.toDigits 10 n) 0
  rw [Nat.ofDigitChars_replicate_zero, Nat.mul_zero,
    Nat.ofDigitChars_toDigits (by decide) (by decide)] at h
  exact h

def EndsNumber : List Char → Prop
  | [] => True
  | c :: _ => c.isDigit = false

theorem takeWhile_digits {ds rest : List Char} (hds : ∀ c ∈ ds, c.isDigit = true)
    (hrest : EndsNumber rest) : (ds ++ rest).takeWhile Char.isDigit = ds := by
  rw [List.takeWhile_append_of_pos hds]
  cases rest with
  | nil => simp
  | cons c rest => simp [show c.isDigit = false from hrest]

theorem EndsNumber.take {rest : List Char} (h : EndsNumber rest) (n : Nat) :
    EndsNumber (rest.take n) := by
  cases rest with
  | nil => simp [EndsNumber]
  | cons c rest => cases n <;> simp_all [EndsNumber]

theorem number?_digits {least most : Nat} {ds rest : List Char} (hds : ∀ c ∈ ds, c.isDigit = true)
    (hmost : ds.length ≤ most) (hrest : ds.length = most ∨ EndsNumber rest) :
    number? least most (ds ++ rest) =
      if least ≤ ds.length then
        some (ds.foldl (fun n c => 10 * n + (c.toNat - '0'.toNat)) 0, rest)
      else none := by
  have hends : EndsNumber (rest.take (most - ds.length)) := by
    rcases hrest with rfl | hrest
    · simp [EndsNumber]
    · exact hrest.take _
  have hdigits : ((ds ++ rest).take most).takeWhile Char.isDigit = ds := by
    rw [List.take_append, List.take_of_length_le hmost]
    exact takeWhile_digits hds hends
  simp only [number?, hdigits, List.drop_left]

theorem number?_padded {least most width n : Nat} (hwidth : 0 < width) (h : n < Nat.pow 10 width)
    (hleast : least ≤ width) (hmost : width ≤ most) {rest : List Char}
    (hrest : width = most ∨ EndsNumber rest) :
    number? least most (padded width n ++ rest) = some (n, rest) := by
  have hlength := length_padded hwidth h
  rw [number?_digits (fun _ => isDigit_of_mem_padded) (by omega)
    (hrest.imp hlength.trans id), if_pos (by omega), value_padded]

def Instant.EndsMinute (t : Instant) : Prop :=
  1000000000 ≤ t.nano.val → t.second.val % 60 = 59

/-- An instant that a stamp of the records can hold: of the years 0 to 9999, without anything finer
than a millisecond, and inside a leap second only at the end of a minute. -/
structure Instant.IsRecorded (t : Instant) : Prop where
  first : 0 ≤ (Date.ofDays t.day).year
  last : (Date.ofDays t.day).year ≤ 9999
  millis : t.nano.val % 1000000 = 0
  leap : t.EndsMinute

namespace Instant

variable {t : Instant}

theorem IsRecorded.day_known (h : t.IsRecorded) : minDay ≤ t.day ∧ t.day ≤ maxDay := by
  have hmin : minDay = -96465292 := by decide
  have hmax : maxDay = 95026236 := by decide
  obtain ⟨cycle, y, r, hy, hr, -, hn, hdate⟩ := exists_ofDays t.day
  have hfirst := h.first
  have hlast := h.last
  rw [hdate] at hfirst hlast
  simp only at hfirst hlast
  have hcycle : -1 ≤ cycle ∧ cycle ≤ 24 := by
    split at hfirst <;> omega
  omega

theorem IsRecorded.assemble? (h : t.IsRecorded) :
    assemble? (Date.ofDays t.day) (t.second.val / 3600) (t.second.val / 60 % 60)
      (t.second.val % 60 + t.nano.val / 1000000000) (t.nano.val % 1000000000) 0 = some t := by
  have hsecond := t.second.isLt
  have hnano := t.nano.isLt
  have hleap : 1000000000 ≤ t.nano.val → t.second.val % 60 = 59 := h.leap
  obtain ⟨hmin, hmax⟩ := h.day_known
  have hyear : minYear ≤ (Date.ofDays t.day).year ∧ (Date.ofDays t.day).year ≤ maxYear := by
    have hfirst := h.first
    have hlast := h.last
    unfold minYear maxYear
    omega
  have hseconds : ((t.second.val / 3600 : Nat) : Int) * 3600 + (t.second.val / 60 % 60 : Nat) * 60 +
      (min (t.second.val % 60 + t.nano.val / 1000000000) 59 : Nat) - 0 = t.second.val := by omega
  have hsecond60 : t.second.val % 60 + t.nano.val / 1000000000 = 60 ↔ 1000000000 ≤ t.nano.val := by
    omega
  have hrange : (t.second.val / 3600 < 24) ∧ t.second.val / 60 % 60 < 60 ∧
      t.second.val % 60 + t.nano.val / 1000000000 ≤ 60 ∧ t.nano.val % 1000000000 < 1000000000 := by
    omega
  unfold Time.assemble?
  rw [dif_pos ⟨isValid_ofDays t.day, hyear.1, hyear.2, hrange.1, hrange.2.1, hrange.2.2.1,
    hrange.2.2.2, by decide, by decide⟩]
  have hday : t.day + (t.second.val : Int) / 86400 = t.day := by omega
  simp only [hseconds, toDays_ofDays, hday]
  rw [if_pos ⟨hmin, hmax⟩]
  have hnano' : t.nano.val % 1000000000 +
      (if t.second.val % 60 + t.nano.val / 1000000000 = 60 then 1000000000 else 0) = t.nano.val := by
    split <;> omega
  have hsecond' : ((t.second.val : Int) % 86400).toNat = t.second.val := by omega
  simp only [hnano', hsecond']

theorem char?_self (c : Char) (rest : List Char) : char? c (c :: rest) = some rest := if_pos rfl

theorem number?_padded_two {n : Nat} (h : n < 100) (rest : List Char) :
    number? 2 2 (padded 2 n ++ rest) = some (n, rest) :=
  number?_padded (by decide) h (by decide) (by decide) (.inl rfl)

theorem fraction?_places {nano : Nat} (h : nano < 1000000000) (hmillis : nano % 1000000 = 0) :
    fraction? (places 3 nano ++ ['Z']) = some (nano, ['Z']) := by
  have hthree : nano / 1000000 < 1000 := by omega
  have hplaces : places 3 nano = '.' :: padded 3 (nano / 1000000) := rfl
  have hnumber : number? 1 9 (padded 3 (nano / 1000000) ++ ['Z']) = some (nano / 1000000, ['Z']) :=
    number?_padded (by decide) hthree (by decide) (by decide) (.inr rfl)
  have hlength : (padded 3 (nano / 1000000) ++ ['Z']).length - ['Z'].length = 3 := by
    rw [List.length_append, length_padded (by decide) hthree]
    rfl
  have hvalue : nano / 1000000 * Nat.pow 10 (9 - 3) = nano := by
    show nano / 1000000 * 1000000 = nano
    omega
  simp only [hplaces, List.cons_append, fraction?, hnumber, hlength, hvalue, Option.bind_eq_bind,
    Option.bind_some]
  rfl

theorem fraction?_neededPlaces {nano : Nat} (h : nano < 1000000000) (hmillis : nano % 1000000 = 0) :
    fraction? (neededPlaces nano ++ ['Z']) = some (nano, ['Z']) := by
  by_cases hzero : nano = 0
  · subst hzero
    rfl
  · rw [neededPlaces, if_neg hzero, if_pos hmillis]
    exact fraction?_places h hmillis

theorem month_day_lt (n : Int) : (Date.ofDays n).month < 100 ∧ (Date.ofDays n).day < 100 := by
  have hvalid := isValid_ofDays n
  have hle : daysInMonth (Date.ofDays n).year (Date.ofDays n).month ≤ 31 := by
    unfold daysInMonth
    split
    · split <;> omega
    · split <;> omega
  simp only [Date.isValid, Bool.and_eq_true, decide_eq_true_eq] at hvalid
  omega

theorem strictChars?_chars (h : t.IsRecorded) {fraction : Nat → List Char}
    (hfraction : fraction? (fraction (t.nano.val % 1000000000) ++ ['Z']) =
      some (t.nano.val % 1000000000, ['Z'])) :
    strictChars? (t.chars fraction) = some t := by
  have hfirst := h.first
  have hlast := h.last
  have hlt : (Date.ofDays t.day).year.toNat < 10000 := by omega
  have hyear (rest : List Char) : number? 4 4 (padded 4 (Date.ofDays t.day).year.toNat ++ rest) =
      some ((Date.ofDays t.day).year.toNat, rest) :=
    number?_padded (by decide) hlt (by decide) (by decide) (.inl rfl)
  have hdate : (⟨((Date.ofDays t.day).year.toNat : Int), (Date.ofDays t.day).month,
      (Date.ofDays t.day).day⟩ : Date) = Date.ofDays t.day := by
    rw [Int.toNat_of_nonneg hfirst]
  have hmonth := number?_padded_two (month_day_lt t.day).1
  have hday := number?_padded_two (month_day_lt t.day).2
  have hhour (rest : List Char) := number?_padded_two (n := t.second.val / 3600) (by omega) rest
  have hminute (rest : List Char) := number?_padded_two (n := t.second.val / 60 % 60) (by omega) rest
  have hsecond (rest : List Char) :=
    number?_padded_two (n := t.second.val % 60 + t.nano.val / 1000000000) (by omega) rest
  have hparts := h.assemble?
  have hseparator (rest : List Char) : separator? ('T' :: rest) = some rest := rfl
  have hoffset : offset? (char? ':') ['Z'] = some (0, []) := rfl
  unfold strictChars? chars
  simp only [yearText, hfirst, hlast, and_self, if_true, hyear, hmonth, hday, hhour, hminute,
    hsecond, hfraction, char?_self, hseparator, hoffset, Option.bind_eq_bind, Option.bind_some,
    List.isEmpty_nil, hdate]
  exact hparts

theorem exists_padded (width n : Nat) :
    ∃ c cs, padded width n = c :: cs ∧ c.isDigit = true := by
  cases hp : padded width n with
  | nil =>
    have hnil := List.append_eq_nil_iff.mp hp
    exact absurd hnil.2 Nat.toDigits_ne_nil
  | cons c cs => exact ⟨c, cs, rfl, isDigit_of_mem_padded (by rw [hp]; simp)⟩

theorem isBlank_of_isDigit {c : Char} (h : c.isDigit = true) : Text.isBlank c = false := by
  have hdigit := Char.isDigit_iff_toNat.mp h
  have hle : 48 ≤ c.toNat ∧ c.toNat ≤ 57 := hdigit
  simp only [Text.isBlank, Text.blankRanges, List.any_cons, List.any_nil, Bool.or_false,
    Bool.or_eq_false_iff, Bool.and_eq_false_iff, decide_eq_false_iff_not]
  omega

theorem trimLeft_padded (width n : Nat) (rest : List Char) :
    Text.trimLeft (padded width n ++ rest) = padded width n ++ rest := by
  obtain ⟨c, cs, hp, hc⟩ := exists_padded width n
  rw [hp, List.cons_append, Text.trimLeft, List.dropWhile_cons_of_neg]
  simp [isBlank_of_isDigit hc]

theorem looseNumber?_padded {n : Nat} (h : n < 100) (rest : List Char) :
    looseNumber? (padded 2 n ++ rest) = some (n, rest) := by
  rw [looseNumber?, trimLeft_padded]
  exact number?_padded (by decide) h (by decide) (by decide) (.inl rfl)

theorem looseYear?_padded {n : Nat} (h : n < 10000) (rest : List Char) :
    looseYear? (padded 4 n ++ rest) = some ((n : Int), rest) := by
  have hnumber : number? 1 4 (padded 4 n ++ rest) = some (n, rest) :=
    number?_padded (by decide) h (by decide) (by decide) (.inl rfl)
  obtain ⟨c, cs, hp, hc⟩ := exists_padded 4 n
  unfold looseYear?
  rw [trimLeft_padded]
  rw [hp, List.cons_append] at hnumber ⊢
  split
  case h_1 hcs => cases hcs; cases hc
  case h_2 hcs => cases hcs; cases hc
  case h_3 => rw [hnumber]; rfl

theorem looseChars?_chars (h : t.IsRecorded) {fraction : Nat → List Char}
    (hfraction : fraction? (fraction (t.nano.val % 1000000000) ++ ['Z']) =
      some (t.nano.val % 1000000000, ['Z'])) :
    looseChars? (t.chars fraction) = some t := by
  have hfirst := h.first
  have hlast := h.last
  have hyear (rest : List Char) : looseYear? (padded 4 (Date.ofDays t.day).year.toNat ++ rest) =
      some ((Date.ofDays t.day).year, rest) := by
    rw [looseYear?_padded (by omega), Int.toNat_of_nonneg hfirst]
  have hmonth := looseNumber?_padded (month_day_lt t.day).1
  have hday := looseNumber?_padded (month_day_lt t.day).2
  have hhour (rest : List Char) := looseNumber?_padded (n := t.second.val / 3600) (by omega) rest
  have hminute (rest : List Char) :=
    looseNumber?_padded (n := t.second.val / 60 % 60) (by omega) rest
  have hsecond (rest : List Char) :=
    looseNumber?_padded (n := t.second.val % 60 + t.nano.val / 1000000000) (by omega) rest
  have hparts := h.assemble?
  have hseparator (rest : List Char) : separator? ('T' :: rest) = some rest := rfl
  have hhyphen (rest : List Char) : Text.trimLeft ('-' :: rest) = '-' :: rest := rfl
  have hcolon (rest : List Char) : Text.trimLeft (':' :: rest) = ':' :: rest := rfl
  have hoffset : looseOffset? (Text.trimLeft ['Z']) = some (0, []) := rfl
  have hend : Text.trimLeft [] = [] := rfl
  unfold looseChars? looseDate? chars
  simp only [yearText, hfirst, hlast, and_self, if_true, hyear, hmonth, hday, hhour, hminute,
    hsecond, hfraction, char?_self, hseparator, hhyphen, hcolon, hoffset, hend,
    Option.bind_eq_bind, Option.bind_some, List.isEmpty_nil, Option.pure_def]
  exact hparts

theorem IsRecorded.strict?_millis (h : t.IsRecorded) : strict? t.millis = some t := by
  rw [strict?, Instant.millis, String.toList_ofList]
  exact strictChars?_chars h (fraction?_places (Nat.mod_lt _ (by decide)) (by have := h.millis; omega))

theorem IsRecorded.loose?_exact (h : t.IsRecorded) : loose? t.exact = some t := by
  rw [loose?, Instant.exact, String.toList_ofList]
  exact looseChars?_chars h
    (fraction?_neededPlaces (Nat.mod_lt _ (by decide)) (by have := h.millis; omega))

end Instant

end Clientele.Time
