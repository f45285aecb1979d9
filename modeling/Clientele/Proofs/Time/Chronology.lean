import Clientele.Proofs.Text.Order
import Clientele.Proofs.Time.Stamp

/-!
The order of instants and the order of their stamps. Days are in order as their dates are, and an
instant is put together from date and time in an order-preserving way. Two stamps that are spelled
alike are therefore in order as texts exactly as their instants are; it takes the same separator, as
many places and the same offset, letter by letter.
-/
set_option autoImplicit false

namespace Clientele.Time

/-- The days before a year, from a day on that is the same for all years. -/
def daysBeforeYear (y : Int) : Int :=
  365 * y + (y - 1) / 4 - (y - 1) / 100 + (y - 1) / 400 - 719528

def daysBeforeMonth (y : Int) (m : Nat) : Nat :=
  (367 * m - 362) / 12 - if m ≤ 2 then 0 else if isLeapYear y then 1 else 2

theorem isLeapYear_iff {y : Int} :
    isLeapYear y = true ↔ y % 4 = 0 ∧ (y % 100 ≠ 0 ∨ y % 400 = 0) := by
  simp [isLeapYear]

theorem Date.isValid_iff {d : Date} :
    d.isValid = true ↔ 1 ≤ d.month ∧ d.month ≤ 12 ∧ 1 ≤ d.day ∧ d.day ≤ daysInMonth d.year d.month := by
  simp [isValid, and_assoc]

theorem daysBeforeYear_succ (y : Int) :
    daysBeforeYear (y + 1) = daysBeforeYear y + if isLeapYear y then 366 else 365 := by
  unfold daysBeforeYear
  rw [Int.add_sub_cancel]
  split
  case isTrue h => rw [isLeapYear_iff] at h; omega
  case isFalse h => rw [isLeapYear_iff] at h; omega

theorem days_of_cycles (y : Int) :
    y / 400 * 146097 + (y % 400 * 365 + y % 400 / 4 - y % 400 / 100) =
      daysBeforeYear (y + 1) + 719163 := by
  unfold daysBeforeYear
  omega

theorem days_of_months {m : Nat} (hfirst : 3 ≤ m) (hlast : m ≤ 12) :
    (153 * (m - 3) + 2) / 5 + 61 = (367 * m - 362) / 12 := by
  have hm : m = 3 ∨ m = 4 ∨ m = 5 ∨ m = 6 ∨ m = 7 ∨ m = 8 ∨ m = 9 ∨ m = 10 ∨ m = 11 ∨ m = 12 := by
    omega
  rcases hm with rfl | rfl | rfl | rfl | rfl | rfl | rfl | rfl | rfl | rfl <;> rfl

theorem Date.toDays_eq {d : Date} (h : d.isValid = true) :
    d.toDays = daysBeforeYear d.year + daysBeforeMonth d.year d.month + d.day := by
  obtain ⟨y, m, day⟩ := d
  obtain ⟨hfirst, hlast, hday, -⟩ := isValid_iff.mp h
  simp only at hfirst hlast hday ⊢
  unfold toDays daysBeforeMonth
  by_cases hm : m ≤ 2
  · have hcycles := days_of_cycles (y - 1)
    have hmonths : (153 * (m + 9) + 2) / 5 = (367 * m - 362) / 12 + 306 := by
      obtain rfl | rfl : m = 1 ∨ m = 2 := by omega
      all_goals rfl
    rw [Int.sub_add_cancel] at hcycles
    simp only [hm, if_true]
    omega
  · have hcycles := days_of_cycles y
    have hmonths := days_of_months (m := m) (by omega) hlast
    rw [daysBeforeYear_succ] at hcycles
    cases hleap : isLeapYear y <;>
      simp only [hm, hleap, if_true, if_false, Bool.false_eq_true] at hcycles ⊢ <;> omega

theorem daysBeforeYear_mono {y y' : Int} (h : y ≤ y') : daysBeforeYear y ≤ daysBeforeYear y' := by
  unfold daysBeforeYear
  omega

theorem daysBeforeMonth_succ (y : Int) {m : Nat} (hfirst : 1 ≤ m) (hlast : m ≤ 12) :
    daysBeforeMonth y (m + 1) = daysBeforeMonth y m + daysInMonth y m := by
  have hm : m = 1 ∨ m = 2 ∨ m = 3 ∨ m = 4 ∨ m = 5 ∨ m = 6 ∨ m = 7 ∨ m = 8 ∨ m = 9 ∨ m = 10 ∨
      m = 11 ∨ m = 12 := by omega
  unfold daysBeforeMonth daysInMonth
  cases isLeapYear y <;>
    rcases hm with rfl | rfl | rfl | rfl | rfl | rfl | rfl | rfl | rfl | rfl | rfl | rfl <;> rfl

theorem daysBeforeMonth_mono (y : Int) {m m' : Nat} (h : m ≤ m') :
    daysBeforeMonth y m ≤ daysBeforeMonth y m' := by
  unfold daysBeforeMonth
  cases isLeapYear y <;> by_cases hm : m ≤ 2 <;> by_cases hm' : m' ≤ 2 <;>
    simp only [hm, hm', if_true, if_false, Bool.false_eq_true] <;> omega

namespace Date

variable {d d' : Date}

theorem bounds_of_isValid (h : d.isValid = true) :
    1 ≤ d.day ∧ daysBeforeMonth d.year d.month + d.day ≤ daysBeforeMonth d.year (d.month + 1) ∧
      daysBeforeYear d.year + daysBeforeMonth d.year (d.month + 1) ≤ daysBeforeYear (d.year + 1) := by
  obtain ⟨hfirst, hlast, hday, hmost⟩ := isValid_iff.mp h
  refine ⟨hday, ?_, ?_⟩
  · rw [daysBeforeMonth_succ _ hfirst hlast]
    omega
  · have hyear : daysBeforeMonth d.year (12 + 1) = if isLeapYear d.year then 366 else 365 := by
      unfold daysBeforeMonth
      cases isLeapYear d.year <;> rfl
    have hle : daysBeforeMonth d.year (d.month + 1) ≤ daysBeforeMonth d.year (12 + 1) :=
      daysBeforeMonth_mono _ (by omega)
    rw [hyear] at hle
    rw [daysBeforeYear_succ]
    split at hle <;> simp only [*, if_true, if_false, Bool.false_eq_true] <;> omega

theorem toDays_lt_of_year (h : d.isValid = true) (h' : d'.isValid = true)
    (hlt : d.year < d'.year) : d.toDays < d'.toDays := by
  obtain ⟨hday, hmonth, hyear⟩ := bounds_of_isValid h
  obtain ⟨hday', -, -⟩ := bounds_of_isValid h'
  have hle := daysBeforeYear_mono (Int.add_one_le_of_lt hlt)
  rw [toDays_eq h, toDays_eq h']
  omega

theorem toDays_lt_of_month (h : d.isValid = true) (h' : d'.isValid = true)
    (heq : d.year = d'.year) (hlt : d.month < d'.month) : d.toDays < d'.toDays := by
  obtain ⟨hday, hmonth, -⟩ := bounds_of_isValid h
  obtain ⟨hday', -, -⟩ := bounds_of_isValid h'
  have hle : daysBeforeMonth d.year (d.month + 1) ≤ daysBeforeMonth d.year d'.month :=
    daysBeforeMonth_mono _ hlt
  rw [toDays_eq h, toDays_eq h', ← heq]
  omega

theorem compare_toDays (h : d.isValid = true) (h' : d'.isValid = true) :
    compare d.toDays d'.toDays =
      (compare d.year d'.year).then ((compare d.month d'.month).then (compare d.day d'.day)) := by
  refine compare_eq_then (toDays_lt_of_year h h') (fun hyear => ?_) (toDays_lt_of_year h' h)
  refine compare_eq_then (toDays_lt_of_month h h' hyear) (fun hmonth => ?_)
    (toDays_lt_of_month h' h hyear.symm)
  rw [toDays_eq h, toDays_eq h', hyear, hmonth, compare_add_left, compare_natCast]

end Date

namespace Instant

variable {x y : Instant}

theorem compare_eq (x y : Instant) :
    x.compare y = (Ord.compare (x.day * 86400 + x.second.val) (y.day * 86400 + y.second.val)).then
      (Ord.compare x.nano.val y.nano.val) := by
  rw [compare_radix (by omega) (by omega), compare_natCast, Ordering.then_assoc, compare]

end Instant

theorem assemble?_eq_some {date : Date} {hour minute second nano : Nat} {offset : Int} {x : Instant}
    (h : assemble? date hour minute second nano offset = some x) :
    date.isValid = true ∧ hour < 24 ∧ minute < 60 ∧ second ≤ 60 ∧ nano < 1000000000 ∧
      x.day * 86400 + x.second.val =
        -offset + (date.toDays * 86400 + ((hour * 60 + minute) * 60 + (min second 59 : Nat))) ∧
      x.nano.val = nano + if second = 60 then 1000000000 else 0 := by
  unfold assemble? at h
  split at h
  case isFalse => cases h
  case isTrue hparts =>
    simp only at h
    split at h
    case isFalse => cases h
    case isTrue =>
      rw [← Option.some.inj h]
      obtain ⟨hdate, -, -, hhour, hminute, hsecond, hnano, -, -⟩ := hparts
      refine ⟨hdate, hhour, hminute, hsecond, hnano, ?_, rfl⟩
      simp only
      omega

theorem compare_of_assemble? {d d' : Date} {hour hour' minute minute' second second' nano nano' : Nat}
    {offset : Int} {x y : Instant} (hx : assemble? d hour minute second nano offset = some x)
    (hy : assemble? d' hour' minute' second' nano' offset = some y) :
    x.compare y = (compare d.year d'.year).then ((compare d.month d'.month).then
      ((compare d.day d'.day).then ((compare hour hour').then ((compare minute minute').then
        ((compare second second').then (compare nano nano')))))) := by
  obtain ⟨hd, hhour, hminute, hsecond, hnano, htime, hfraction⟩ := assemble?_eq_some hx
  obtain ⟨hd', hhour', hminute', hsecond', hnano', htime', hfraction'⟩ := assemble?_eq_some hy
  have hleap : (compare (min second 59) (min second' 59)).then (compare x.nano.val y.nano.val) =
      (compare second second').then (compare nano nano') := by
    rw [← compare_natCast, ← compare_natCast x.nano.val, ← compare_natCast nano,
      ← compare_radix (R := 2000000000) (by omega) (by omega), hfraction, hfraction']
    refine compare_eq_then ?_ ?_ ?_
    · intro hlt
      split <;> split <;> omega
    · rintro rfl
      rw [Int.compare_eq_ite_lt, Int.compare_eq_ite_lt]
      congr 1 <;> simp
    · intro hlt
      split <;> split <;> omega
  rw [Instant.compare_eq, htime, htime', compare_add_left, compare_radix (by omega) (by omega),
    compare_radix (by omega) (by omega), compare_radix (by omega) (by omega),
    Date.compare_toDays hd hd']
  simp only [compare_natCast, Ordering.then_assoc, hleap]

def afterFraction : List Char → List Char
  | '.' :: cs => cs.dropWhile Char.isDigit
  | cs => cs

/-- What a stamp leaves open apart from its numbers. -/
structure Spelling where
  separator : Option Char
  fraction : Nat
  offset : List Char
  deriving DecidableEq, Repr

/-- Date and time stand in the first nineteen characters, the separator between them. -/
def spelling (s : String) : Spelling :=
  let rest := s.toList.drop 19
  ⟨s.toList[10]?, rest.length - (afterFraction rest).length, afterFraction rest⟩

section Readers

variable {cs cs' ds ds' : List Char}

theorem number?_eq_some {least most n : Nat} (h : number? least most cs = some (n, cs')) :
    ∃ es, cs = es ++ cs' ∧ (∀ c ∈ es, c.isDigit = true) ∧ least ≤ es.length ∧ es.length ≤ most ∧
      n = es.foldl (fun n c => 10 * n + (c.toNat - '0'.toNat)) 0 := by
  unfold number? at h
  simp only at h
  split at h
  case isFalse => cases h
  case isTrue hleast =>
    obtain ⟨rfl, rfl⟩ := Prod.mk.inj (Option.some.inj h)
    have hprefix : (cs.take most).takeWhile Char.isDigit <+: cs :=
      (List.takeWhile_prefix _).trans (List.take_prefix most cs)
    refine ⟨_, (List.prefix_iff_eq_append.mp hprefix).symm,
      List.all_eq_true.mp List.all_takeWhile, hleast, ?_, rfl⟩
    exact Nat.le_trans (List.takeWhile_prefix _).length_le (List.length_take_le ..)

theorem compare_number? {width m n : Nat} (hc : number? width width cs = some (m, cs'))
    (hd : number? width width ds = some (n, ds')) :
    compare cs ds = (compare m n).then (compare cs' ds') ∧ cs' = cs.drop width ∧
      ds' = ds.drop width := by
  obtain ⟨es, rfl, hes, hleast, hmost, rfl⟩ := number?_eq_some hc
  obtain ⟨fs, rfl, hfs, hleast', hmost', rfl⟩ := number?_eq_some hd
  have hlength : es.length = width := Nat.le_antisymm hmost hleast
  have hlength' : fs.length = width := Nat.le_antisymm hmost' hleast'
  refine ⟨?_, by simp [← hlength], by simp [← hlength']⟩
  rw [← compare_digits hes hfs (hlength.trans hlength'.symm) 0 0]
  rfl

theorem compare_char? {c : Char} (hc : char? c cs = some cs') (hd : char? c ds = some ds') :
    compare cs ds = compare cs' ds' ∧ cs' = cs.drop 1 ∧ ds' = ds.drop 1 := by
  unfold char? at hc hd
  cases cs with
  | nil => cases hc
  | cons a cs =>
    cases ds with
    | nil => cases hd
    | cons b ds =>
      simp only [Option.ite_none_right_eq_some, Option.some.injEq] at hc hd
      obtain ⟨rfl, rfl⟩ := hc
      obtain ⟨rfl, rfl⟩ := hd
      simp

theorem compare_separator? (hc : separator? cs = some cs') (hd : separator? ds = some ds')
    (h : cs[0]? = ds[0]?) : compare cs ds = compare cs' ds' ∧ cs' = cs.drop 1 ∧ ds' = ds.drop 1 := by
  unfold separator? at hc hd
  cases cs with
  | nil => cases hc
  | cons a cs =>
    cases ds with
    | nil => cases hd
    | cons b ds =>
      simp only [Option.ite_none_right_eq_some, Option.some.injEq] at hc hd
      obtain ⟨-, rfl⟩ := hc
      obtain ⟨-, rfl⟩ := hd
      obtain rfl : a = b := by simpa using h
      simp

theorem endsNumber_dropWhile (cs : List Char) : EndsNumber (cs.dropWhile Char.isDigit) := by
  cases h : cs.dropWhile Char.isDigit with
  | nil => trivial
  | cons c rest =>
    have hne : cs.dropWhile Char.isDigit ≠ [] := by simp [h]
    have hhead := List.head_dropWhile_not Char.isDigit hne
    simp only [h, List.head_cons] at hhead
    exact hhead

theorem fraction?_eq_some {nano : Nat} (h : fraction? cs = some (nano, cs'))
    (hplaces : cs.length - (afterFraction cs).length ≤ 10) :
    cs' = afterFraction cs ∧ (cs = cs' ∧ nano = 0 ∨
      ∃ es, cs = '.' :: (es ++ cs') ∧ (∀ c ∈ es, c.isDigit = true) ∧ es.length ≤ 9 ∧
        nano = es.foldl (fun n c => 10 * n + (c.toNat - '0'.toNat)) 0 *
          Nat.pow 10 (9 - es.length)) := by
  unfold fraction? at h
  split at h
  case h_1 cs =>
    rw [afterFraction, List.length_cons] at hplaces
    rw [afterFraction]
    have hcs : cs = cs.takeWhile Char.isDigit ++ cs.dropWhile Char.isDigit :=
      List.takeWhile_append_dropWhile.symm
    have hds : ∀ c ∈ cs.takeWhile Char.isDigit, c.isDigit = true :=
      List.all_eq_true.mp List.all_takeWhile
    have hends := endsNumber_dropWhile cs
    generalize cs.takeWhile Char.isDigit = es at hcs hds
    generalize cs.dropWhile Char.isDigit = rest at hcs hplaces hends ⊢
    subst hcs
    rw [List.length_append] at hplaces
    have hdrop : rest.dropWhile Char.isDigit = rest := by
      cases rest with
      | nil => rfl
      | cons c rest => rw [List.dropWhile_cons_of_neg (by simp [show c.isDigit = false from hends])]
    rw [number?_digits hds (by omega) (.inr hends)] at h
    split at h
    case isFalse => cases h
    case isTrue =>
      simp only [Option.bind_eq_bind, Option.bind_some, Option.pure_def, Option.some.injEq,
        Prod.mk.injEq, hdrop, List.length_append, Nat.add_sub_cancel] at h
      obtain ⟨rfl, rfl⟩ := h
      exact ⟨rfl, .inr ⟨es, rfl, hds, by omega, rfl⟩⟩
  case h_2 hpoint =>
    obtain ⟨rfl, rfl⟩ := Prod.mk.inj (Option.some.inj h)
    refine ⟨?_, .inl ⟨rfl, rfl⟩⟩
    unfold afterFraction
    split
    case h_1 => exact absurd rfl (hpoint _)
    case h_2 => rfl

theorem compare_fraction? {m n : Nat} (hc : fraction? cs = some (m, cs'))
    (hd : fraction? ds = some (n, ds')) (hrest : afterFraction cs = afterFraction ds)
    (hlength : cs.length - (afterFraction cs).length = ds.length - (afterFraction ds).length)
    (hplaces : cs.length - (afterFraction cs).length ≤ 10) :
    compare cs ds = compare m n ∧ cs' = ds' := by
  obtain ⟨hcs', hcs⟩ := fraction?_eq_some hc hplaces
  obtain ⟨hds', hds⟩ := fraction?_eq_some hd (hlength ▸ hplaces)
  rw [← hcs', ← hds'] at hrest hlength
  subst hrest
  refine ⟨?_, rfl⟩
  obtain ⟨rfl, rfl⟩ | ⟨es, rfl, hes, -, rfl⟩ := hcs <;>
  obtain ⟨rfl, rfl⟩ | ⟨fs, rfl, hfs, -, rfl⟩ := hds
  · simp
  · rw [List.length_cons, List.length_append] at hlength
    omega
  · rw [List.length_cons, List.length_append] at hlength
    omega
  · have hwidth : es.length = fs.length := by
      simp only [List.length_cons, List.length_append] at hlength
      omega
    have hvalues := @compare_digits es fs cs' cs' hes hfs hwidth 0 0
    rw [Std.compare_self, Std.compare_self, Ordering.eq_then, Ordering.then_eq] at hvalues
    have hpow : 0 < Nat.pow 10 (9 - fs.length) := Nat.pow_pos (by decide)
    rw [List.compare_cons_cons, Std.compare_self, Ordering.eq_then, hvalues, hwidth,
      compare_mul_right hpow]

end Readers

/-- Two stamps that are spelled alike, with at most nine places, are in order as texts exactly as
their instants are. -/
theorem compare_of_spelling {s t : String} {x y : Instant} (hx : strict? s = some x)
    (hy : strict? t = some y) (hspelling : spelling s = spelling t)
    (hplaces : (spelling s).fraction ≤ 10) : compare s t = x.compare y := by
  obtain ⟨hseparator, hfraction, hoffset⟩ := Spelling.mk.inj hspelling
  replace hplaces : (s.toList.drop 19).length - (afterFraction (s.toList.drop 19)).length ≤ 10 := hplaces
  rw [compare_toList]
  rw [strict?] at hx hy
  generalize s.toList = cs at *
  generalize t.toList = ds at *
  simp only [strictChars?, Option.bind_eq_bind, Option.bind_eq_some_iff] at hx hy
  obtain ⟨⟨year, cs₁⟩, hyear, cs₂, hc₂, ⟨month, cs₃⟩, hmonth, cs₄, hc₄, ⟨day, cs₅⟩, hday, cs₆, hc₆,
    ⟨hour, cs₇⟩, hhour, cs₈, hc₈, ⟨minute, cs₉⟩, hminute, cs₁₀, hc₁₀, ⟨second, cs₁₁⟩, hsecond,
    ⟨nano, cs₁₂⟩, hnano, ⟨offset, cs₁₃⟩, hc₁₃, hx⟩ := hx
  obtain ⟨⟨year', ds₁⟩, hyear', ds₂, hd₂, ⟨month', ds₃⟩, hmonth', ds₄, hd₄, ⟨day', ds₅⟩, hday', ds₆,
    hd₆, ⟨hour', ds₇⟩, hhour', ds₈, hd₈, ⟨minute', ds₉⟩, hminute', ds₁₀, hd₁₀, ⟨second', ds₁₁⟩,
    hsecond', ⟨nano', ds₁₂⟩, hnano', ⟨offset', ds₁₃⟩, hd₁₃, hy⟩ := hy
  rw [Option.ite_none_right_eq_some] at hx hy
  dsimp only at *
  obtain ⟨hcompare₁, rfl, rfl⟩ := compare_number? hyear hyear'
  obtain ⟨hcompare₂, rfl, rfl⟩ := compare_char? hc₂ hd₂
  obtain ⟨hcompare₃, rfl, rfl⟩ := compare_number? hmonth hmonth'
  obtain ⟨hcompare₄, rfl, rfl⟩ := compare_char? hc₄ hd₄
  obtain ⟨hcompare₅, rfl, rfl⟩ := compare_number? hday hday'
  obtain ⟨hcompare₆, rfl, rfl⟩ := compare_separator? hc₆ hd₆ (by simpa using hseparator)
  obtain ⟨hcompare₇, rfl, rfl⟩ := compare_number? hhour hhour'
  obtain ⟨hcompare₈, rfl, rfl⟩ := compare_char? hc₈ hd₈
  obtain ⟨hcompare₉, rfl, rfl⟩ := compare_number? hminute hminute'
  obtain ⟨hcompare₁₀, rfl, rfl⟩ := compare_char? hc₁₀ hd₁₀
  obtain ⟨hcompare₁₁, rfl, rfl⟩ := compare_number? hsecond hsecond'
  simp only [List.drop_drop, Nat.reduceAdd] at *
  obtain ⟨hcompare₁₂, rfl⟩ := compare_fraction? hnano hnano' hoffset hfraction hplaces
  obtain ⟨rfl, -⟩ := Prod.mk.inj (Option.some.inj (hc₁₃.symm.trans hd₁₃))
  rw [compare_of_assemble? hx.2 hy.2, hcompare₁, hcompare₂, hcompare₃, hcompare₄, hcompare₅, hcompare₆,
    hcompare₇, hcompare₈, hcompare₉, hcompare₁₀, hcompare₁₁, hcompare₁₂, compare_natCast]

theorem afterFraction_places {n nano : Nat} :
    afterFraction (places n nano ++ ['Z']) = ['Z'] := by
  rw [places, List.cons_append, afterFraction,
    List.dropWhile_append_of_pos fun _ => isDigit_of_mem_padded]
  rfl

namespace Instant

variable {x y : Instant}

theorem IsRecorded.millis_parts (h : x.IsRecorded) :
    ∃ date time, date.length = 10 ∧ time.length = 8 ∧
      x.millis.toList = date ++ 'T' :: (time ++ (places 3 (x.nano.val % 1000000000) ++ ['Z'])) := by
  have hyear : yearText (Date.ofDays x.day).year = padded 4 (Date.ofDays x.day).year.toNat :=
    if_pos ⟨h.first, h.last⟩
  have hfour : (padded 4 (Date.ofDays x.day).year.toNat).length = 4 :=
    length_padded (by decide) (show _ < 10000 by have := h.last; omega)
  have htwo {n : Nat} (hn : n < 100) : (padded 2 n).length = 2 := length_padded (by decide) hn
  have hmonth := htwo (month_day_lt x.day).1
  have hday := htwo (month_day_lt x.day).2
  have hhour := htwo (n := x.second.val / 3600) (by omega)
  have hminute := htwo (n := x.second.val / 60 % 60) (by omega)
  have hsecond := htwo (n := x.second.val % 60 + x.nano.val / 1000000000) (by omega)
  refine ⟨padded 4 (Date.ofDays x.day).year.toNat ++ '-' :: (padded 2 (Date.ofDays x.day).month ++
    '-' :: padded 2 (Date.ofDays x.day).day), padded 2 (x.second.val / 3600) ++ ':' ::
    (padded 2 (x.second.val / 60 % 60) ++ ':' ::
      padded 2 (x.second.val % 60 + x.nano.val / 1000000000)), ?_, ?_, ?_⟩
  · simp [hfour, hmonth, hday]
  · simp [hhour, hminute, hsecond]
  · simp [Instant.millis, Instant.chars, hyear]

theorem IsRecorded.spelling_millis (h : x.IsRecorded) :
    spelling x.millis = ⟨some 'T', 4, ['Z']⟩ := by
  obtain ⟨date, time, hdate, htime, hchars⟩ := h.millis_parts
  have hplaces : (padded 3 (x.nano.val % 1000000000 / Nat.pow 10 (9 - 3))).length = 3 :=
    length_padded (by decide) (show _ / 1000000 < 1000 by omega)
  have hlength : (places 3 (x.nano.val % 1000000000) ++ ['Z']).length = 5 := by
    rw [places, List.length_append, List.length_cons, hplaces]
    rfl
  have hrest : x.millis.toList.drop 19 = places 3 (x.nano.val % 1000000000) ++ ['Z'] := by
    rw [hchars, ← List.cons_append, ← List.append_assoc]
    exact List.drop_left' (by simp [hdate, htime])
  have hseparator : x.millis.toList[10]? = some 'T' := by
    rw [hchars, List.getElem?_append_right (by omega), hdate]
    rfl
  rw [spelling, hrest, hseparator, hlength, afterFraction_places]
  rfl

theorem compare_millis (hx : x.IsRecorded) (hy : y.IsRecorded) :
    Ord.compare x.millis y.millis = x.compare y := by
  have hspelling := hx.spelling_millis
  refine compare_of_spelling hx.strict?_millis hy.strict?_millis
    (hspelling.trans hy.spelling_millis.symm) ?_
  rw [hspelling]
  decide

theorem IsRecorded.length_millis (h : x.IsRecorded) : x.millis.length = 24 := by
  obtain ⟨date, time, hdate, htime, hchars⟩ := h.millis_parts
  have hplaces : (places 3 (x.nano.val % 1000000000)).length = 4 := by
    rw [places, List.length_cons, length_padded (by decide) (show _ / 1000000 < 1000 by omega)]
  rw [← String.length_toList, hchars]
  simp [hdate, htime, hplaces]

theorem IsRecorded.getLast?_millis (h : x.IsRecorded) : x.millis.toList.getLast? = some 'Z' := by
  obtain ⟨date, time, -, -, hchars⟩ := h.millis_parts
  rw [hchars, ← List.append_assoc, ← List.cons_append, ← List.append_assoc]
  exact List.getLast?_concat

/-- An instant of the years 0 to 9999 that is not inside a leap second. -/
structure IsPlain (t : Instant) : Prop where
  first : 0 ≤ (Date.ofDays t.day).year
  last : (Date.ofDays t.day).year ≤ 9999
  nano : t.nano.val < 1000000000

theorem IsPlain.isRecorded {t : Instant} (h : t.IsPlain) : t.toMillisPrecision.IsRecorded where
  first := h.first
  last := h.last
  millis := Nat.mul_mod_left _ _
  leap hleap := by
    have hnano := h.nano
    simp only [toMillisPrecision] at hleap
    omega

theorem millis_toMillisPrecision (t : Instant) : t.toMillisPrecision.millis = t.millis := by
  have hseconds : t.nano.val / 1000000 * 1000000 / 1000000000 = t.nano.val / 1000000000 := by omega
  have hplaces : places 3 (t.nano.val / 1000000 * 1000000 % 1000000000) =
      places 3 (t.nano.val % 1000000000) := by
    have hmillis : t.nano.val / 1000000 * 1000000 % 1000000000 / Nat.pow 10 (9 - 3) =
        t.nano.val % 1000000000 / Nat.pow 10 (9 - 3) := by
      show _ / 1000000 = _ / 1000000
      omega
    rw [places, places, hmillis]
  simp only [millis, chars, toMillisPrecision, hseconds, hplaces]

end Instant

end Clientele.Time
