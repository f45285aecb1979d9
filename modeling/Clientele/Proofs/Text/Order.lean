import Clientele.Time.Stamp

/-!
The order of texts. Texts are compared character by character, so numbers that are written with the
same number of digits are in order as their values are, and what follows them decides where they are
equal.
-/
set_option autoImplicit false

namespace Clientele

theorem compare_natCast (m n : Nat) : compare (m : Int) n = compare m n := by
  rw [Int.compare_eq_ite_lt, Nat.compare_eq_ite_lt]
  simp only [Int.ofNat_lt]

theorem compare_add_left (a c d : Int) : compare (a + c) (a + d) = compare c d := by
  simp only [Int.compare_eq_ite_lt, Int.add_lt_add_iff_left]

theorem compare_mul_right {k : Nat} (hk : 0 < k) (m n : Nat) :
    compare (m * k) (n * k) = compare m n := by
  simp only [Nat.compare_eq_ite_lt, Nat.mul_lt_mul_right hk]

theorem compare_eq_then {α : Type} [Ord α] [LT α] [LE α] [Std.LawfulOrderOrd α]
    [Std.LawfulOrderLT α] [Std.LawfulEqOrd α] {a b : α} {x y : Int} {o : Ordering}
    (hlt : a < b → x < y) (heq : a = b → compare x y = o) (hgt : b < a → y < x) :
    compare x y = (compare a b).then o := by
  cases h : compare a b with
  | lt => exact Int.compare_eq_lt.mpr (hlt (Std.compare_eq_lt.mp h))
  | eq => exact heq (Std.LawfulEqOrd.eq_of_compare h)
  | gt => exact Int.compare_eq_gt.mpr (hgt (Std.compare_eq_gt.mp h))

theorem compare_radix {R a b c d : Int} (hc : 0 ≤ c ∧ c < R) (hd : 0 ≤ d ∧ d < R) :
    compare (a * R + c) (b * R + d) = (compare a b).then (compare c d) := by
  have hless {a b c d : Int} (hc : c < R) (hd : 0 ≤ d) (h : a < b) : a * R + c < b * R + d := by
    have hle : (a + 1) * R ≤ b * R := Int.mul_le_mul_of_nonneg_right h (by omega)
    rw [Int.add_mul] at hle
    omega
  refine compare_eq_then (hless hc.2 hd.1) ?_ (hless hd.2 hc.1)
  rintro rfl
  exact compare_add_left _ c d

theorem compare_char (c d : Char) : compare c d = compare c.toNat d.toNat := by
  simp only [compare, compareOfLessAndEq, Char.lt_def, Char.toNat, UInt32.lt_iff_toNat_lt,
    ← Char.toNat_inj]

theorem compare_chars (cs ds : List Char) : compare cs ds = compareOfLessAndEq cs ds := by
  induction cs generalizing ds with
  | nil => cases ds <;> simp [compareOfLessAndEq]
  | cons c cs ih =>
    cases ds with
    | nil => simp [compareOfLessAndEq]
    | cons d ds =>
      rw [List.compare_cons_cons, ih]
      have hc : compare c d = compareOfLessAndEq c d := rfl
      rw [hc]
      simp only [compareOfLessAndEq, List.cons_lt_cons_iff, List.cons.injEq]
      by_cases hlt : c < d
      · simp [hlt]
      · by_cases heq : c = d <;> simp [hlt, heq]

theorem compare_toList (s t : String) : compare s t = compare s.toList t.toList := by
  rw [compare_chars]
  simp only [compare, String.compare, compareOfLessAndEq, String.lt_iff, String.toList_inj]

theorem digit_bounds {c : Char} (h : c.isDigit = true) : 48 ≤ c.toNat ∧ c.toNat ≤ 57 :=
  Char.isDigit_iff_toNat.mp h

theorem compare_digit {m n : Nat} {c d : Char} (hc : c.isDigit = true) (hd : d.isDigit = true) :
    compare (10 * m + (c.toNat - '0'.toNat)) (10 * n + (d.toNat - '0'.toNat)) =
      (compare m n).then (compare c d) := by
  have hc := digit_bounds hc
  have hd := digit_bounds hd
  have hzero : '0'.toNat = 48 := rfl
  have hvalues : compare (c.toNat - 48 : Int) (d.toNat - 48) = compare c d := by
    rw [compare_char, Int.compare_eq_ite_lt, Nat.compare_eq_ite_lt]
    simp only [Int.sub_lt_sub_right_iff, Int.ofNat_lt]
  rw [hzero, ← compare_natCast, ← compare_natCast m n, ← hvalues, ← compare_radix (R := 10)
    (by omega) (by omega)]
  congr 1 <;> omega

theorem compare_digits {ds es xs ys : List Char} (hds : ∀ c ∈ ds, c.isDigit = true)
    (hes : ∀ c ∈ es, c.isDigit = true) (hlength : ds.length = es.length) (m n : Nat) :
    (compare m n).then (compare (ds ++ xs) (es ++ ys)) =
      (compare (ds.foldl (fun n c => 10 * n + (c.toNat - '0'.toNat)) m)
        (es.foldl (fun n c => 10 * n + (c.toNat - '0'.toNat)) n)).then (compare xs ys) := by
  induction ds generalizing es m n with
  | nil =>
    cases es with
    | nil => rfl
    | cons => cases hlength
  | cons d ds ih =>
    cases es with
    | nil => cases hlength
    | cons e es =>
      rw [List.forall_mem_cons] at hds hes
      rw [List.cons_append, List.cons_append, List.compare_cons_cons, ← Ordering.then_assoc,
        ← compare_digit hds.1 hes.1, List.foldl_cons, List.foldl_cons]
      exact ih hds.2 hes.2 (Nat.succ.inj hlength) _ _

end Clientele
