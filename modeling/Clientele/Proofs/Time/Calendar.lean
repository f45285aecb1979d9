import Clientele.Time.Instant

/-!
The calendar. Every day has a date, the date is valid, and it is the date of no other day. A cycle
of 400 years falls into centuries, spans of four years and years that begin in March; each of these
but the last of its kind has the same number of days.
-/
set_option autoImplicit false

namespace Clientele.Time

theorem exists_day_of_year {d : Nat} (h : d < 146097) :
    ∃ c q t r : Nat, c ≤ 3 ∧ q ≤ 24 ∧ t ≤ 3 ∧ r ≤ 365 ∧ (r = 365 → t = 3 ∧ (q < 24 ∨ c = 3)) ∧
      d = 36524 * c + 1461 * q + 365 * t + r := by
  have hc : min (d / 36524) 3 ≤ 3 := by omega
  have hs : d - 36524 * min (d / 36524) 3 ≤ 36524 := by omega
  have hlast : d - 36524 * min (d / 36524) 3 = 36524 → min (d / 36524) 3 = 3 := by omega
  have hd : d = 36524 * min (d / 36524) 3 + (d - 36524 * min (d / 36524) 3) := by omega
  generalize min (d / 36524) 3 = c at *
  generalize d - 36524 * c = s at *
  refine ⟨c, s / 1461, min (s % 1461 / 365) 3, s % 1461 - 365 * min (s % 1461 / 365) 3,
    hc, ?_, ?_, ?_, ?_, ?_⟩ <;> omega

theorem year_of_day {c q t r d : Nat} (hc : c ≤ 3) (hq : q ≤ 24) (ht : t ≤ 3) (hr : r ≤ 365)
    (hleap : r = 365 → t = 3 ∧ (q < 24 ∨ c = 3))
    (hd : d = 36524 * c + 1461 * q + 365 * t + r) :
    (d - d / 1460 + d / 36524 - d / 146096) / 365 = 100 * c + 4 * q + t := by
  by_cases hlast : d = 146096
  · subst hlast
    omega
  have hcycle : d / 146096 = 0 := by omega
  have hcentury : d / 36524 = c := by omega
  have hspan : d / 1460 = 25 * c + q + (24 * c + q + 365 * t + r) / 1460 := by omega
  have hle : (24 * c + q + 365 * t + r) / 1460 ≤ 1 := by omega
  rw [hcycle, hcentury, hspan]
  omega

theorem days_before_year {c q t : Nat} (hq : q ≤ 24) (ht : t ≤ 3) :
    365 * (100 * c + 4 * q + t) + (100 * c + 4 * q + t) / 4 - (100 * c + 4 * q + t) / 100 =
      36524 * c + 1461 * q + 365 * t := by
  have hspans : (100 * c + 4 * q + t) / 4 = 25 * c + q := by omega
  have hcenturies : (100 * c + 4 * q + t) / 100 = c := by omega
  omega

theorem isLeapYear_of_last_day {c q : Nat} (hq : q ≤ 24) (h : q < 24 ∨ c = 3) (cycle : Int) :
    isLeapYear ((100 * c + 4 * q + 3 : Nat) + cycle * 400 + 1) = true := by
  simp only [isLeapYear, Bool.and_eq_true, Bool.or_eq_true, decide_eq_true_eq]
  omega

theorem exists_ofDays (n : Int) :
    ∃ (cycle : Int) (y r : Nat), y < 400 ∧ r ≤ 365 ∧
      (r = 365 → isLeapYear (y + cycle * 400 + 1) = true) ∧
      n = cycle * 146097 + (365 * y + y / 4 - y / 100 + r : Nat) - 719468 ∧
      Date.ofDays n =
        let m := (5 * r + 2) / 153
        let month := if m < 10 then m + 3 else m - 9
        ⟨if month ≤ 2 then y + cycle * 400 + 1 else y + cycle * 400, month,
          r - (153 * m + 2) / 5 + 1⟩ := by
  have hn : n = (n + 719468) / 146097 * 146097 + ((n + 719468) % 146097).toNat - 719468 := by omega
  have hd : ((n + 719468) % 146097).toNat < 146097 := by omega
  unfold Date.ofDays
  simp only
  generalize ((n + 719468) % 146097).toNat = d at *
  generalize (n + 719468) / 146097 = cycle at *
  obtain ⟨c, q, t, r, hc, hq, ht, hr, hleap, hsum⟩ := exists_day_of_year hd
  have hbefore := days_before_year (c := c) hq ht
  have hday : d - (36524 * c + 1461 * q + 365 * t) = r := by omega
  refine ⟨cycle, 100 * c + 4 * q + t, r, by omega, hr, ?_, ?_, ?_⟩
  · intro h
    obtain ⟨rfl, hlast⟩ := hleap h
    exact isLeapYear_of_last_day hq hlast cycle
  · rw [hbefore, ← hsum]
    exact hn
  · rw [year_of_day hc hq ht hr hleap hsum, hbefore, hday]

theorem toDays_ofDays (n : Int) : (Date.ofDays n).toDays = n := by
  obtain ⟨cycle, y, r, hy, hr, -, hn, hdate⟩ := exists_ofDays n
  rw [hdate]
  by_cases hm : (5 * r + 2) / 153 < 10
  · have hmonth : ¬((5 * r + 2) / 153 + 3 ≤ 2) := by omega
    simp only [Date.toDays, hm, if_true, hmonth, if_false]
    omega
  · have hmonth : (5 * r + 2) / 153 - 9 ≤ 2 := by omega
    simp only [Date.toDays, hm, if_false, hmonth, if_true]
    omega

theorem day_of_month_le {r m : Nat} (hr : r < 365) (hm : m = (5 * r + 2) / 153) (year : Int) :
    r - (153 * m + 2) / 5 + 1 ≤ daysInMonth year (if m < 10 then m + 3 else m - 9) := by
  have hcases : m = 0 ∨ m = 1 ∨ m = 2 ∨ m = 3 ∨ m = 4 ∨ m = 5 ∨ m = 6 ∨ m = 7 ∨ m = 8 ∨ m = 9 ∨
      m = 10 ∨ m = 11 := by omega
  have hfebruary : 28 ≤ if isLeapYear year then 29 else 28 := by split <;> omega
  rcases hcases with rfl | rfl | rfl | rfl | rfl | rfl | rfl | rfl | rfl | rfl | rfl | rfl <;>
    simp [daysInMonth] <;> omega

theorem isValid_ofDays (n : Int) : (Date.ofDays n).isValid = true := by
  obtain ⟨cycle, y, r, hy, hr, hleap, -, hdate⟩ := exists_ofDays n
  rw [hdate]
  by_cases h : r = 365
  · have hleap := hleap h
    subst h
    simp [Date.isValid, daysInMonth, hleap]
  · simp only [Date.isValid, Bool.and_eq_true, decide_eq_true_eq]
    generalize hm : (5 * r + 2) / 153 = m
    have hlast : m ≤ 11 := by omega
    refine ⟨⟨?_, by omega⟩, day_of_month_le (by omega) hm.symm _⟩
    split <;> omega

end Clientele.Time
