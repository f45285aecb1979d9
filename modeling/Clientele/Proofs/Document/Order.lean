import Clientele.Document.Order
import Clientele.Proofs.Json.Value

/-!
The order for sorting is a total preorder on values, and so is its extension to values that may be
missing.
-/
set_option autoImplicit false

namespace Clientele.Json

theorem compare_bool (a b : Bool) : compare (.bool a) (.bool b) = Ord.compare a b := by
  rw [compare]

theorem compare_num (a b : Number) : compare (.num a) (.num b) = a.compare b := by
  rw [compare]

theorem compare_str (a b : String) : compare (.str a) (.str b) = Ord.compare a b := by
  rw [compare]

theorem compare_arr (xs ys : List Json) :
    compare (.arr xs) (.arr ys) = compareItems xs ys := by
  rw [compare]

theorem compare_of_rank_ne {a b : Json} (h : a.rank ≠ b.rank) :
    compare a b = Ord.compare a.rank b.rank := by
  cases a <;> cases b <;> first | rfl | exact absurd rfl h

theorem rank_le_of_compare_isLE {a b : Json} (h : (compare a b).isLE) : a.rank ≤ b.rank := by
  by_cases hr : a.rank = b.rank
  · exact Nat.le_of_eq hr
  · rw [compare_of_rank_ne hr] at h
    exact Nat.isLE_compare.mp h

theorem rank_eq_of_compare_eq {a b : Json} (h : compare a b = .eq) : a.rank = b.rank := by
  by_cases hr : a.rank = b.rank
  · exact hr
  · rw [compare_of_rank_ne hr] at h
    exact Nat.compare_eq_eq.mp h

instance : Std.TransCmp Number.compare :=
  inferInstanceAs (Std.TransCmp (compareOn fun n : Number => Decimal.place n.toFloat))

theorem compareItems_swap {xs : List Json}
    (h : ∀ x ∈ xs, ∀ y, compare x y = (compare y x).swap) (ys : List Json) :
    compareItems xs ys = (compareItems ys xs).swap := by
  induction xs generalizing ys with
  | nil => cases ys <;> rfl
  | cons x xs ih =>
    cases ys with
    | nil => rfl
    | cons y ys =>
      rw [compareItems, compareItems, Ordering.swap_then, h x (by simp) y,
        ih (fun z hz => h z (by simp [hz])) ys]

theorem compare_swap (a b : Json) : compare a b = (compare b a).swap := by
  induction a using induct generalizing b with
  | arr xs ih =>
    cases b with
    | arr ys => simpa only [compare_arr] using compareItems_swap ih ys
    | _ => rfl
  | bool x =>
    cases b with
    | bool y => simpa only [compare_bool] using Std.OrientedOrd.eq_swap
    | _ => rfl
  | num m =>
    cases b with
    | num n => simpa only [compare_num] using Std.OrientedCmp.eq_swap
    | _ => rfl
  | str s =>
    cases b with
    | str t => simpa only [compare_str] using Std.OrientedOrd.eq_swap
    | _ => rfl
  | _ => cases b <;> rfl

theorem compareItems_congr {xs : List Json}
    (h : ∀ x ∈ xs, ∀ y z, compare x y = .eq → compare x z = compare y z) {ys : List Json}
    (hxy : compareItems xs ys = .eq) (zs : List Json) :
    compareItems xs zs = compareItems ys zs := by
  induction xs generalizing ys zs with
  | nil =>
    cases ys with
    | nil => rfl
    | cons => simp [compareItems] at hxy
  | cons x xs ih =>
    cases ys with
    | nil => simp [compareItems] at hxy
    | cons y ys =>
      rw [compareItems, Ordering.then_eq_eq] at hxy
      cases zs with
      | nil => rfl
      | cons z zs =>
        rw [compareItems, compareItems, h x (by simp) y z hxy.1,
          ih (fun w hw => h w (by simp [hw])) hxy.2 zs]

theorem compare_congr {a b : Json} (h : compare a b = .eq) (c : Json) :
    compare a c = compare b c := by
  have hr := rank_eq_of_compare_eq h
  induction a using induct generalizing b c with
  | arr xs ih =>
    cases b with
    | arr ys =>
      cases c with
      | arr zs =>
        simp only [compare_arr] at h ⊢
        exact compareItems_congr (fun x hx y z hxy => ih x hx hxy z (rank_eq_of_compare_eq hxy)) h zs
      | _ => rfl
    | _ => simp [rank] at hr
  | num m =>
    cases b with
    | num n =>
      cases c with
      | num k =>
        simp only [compare_num] at h ⊢
        exact Std.TransCmp.congr_left h
      | _ => rfl
    | _ => simp [rank] at hr
  | bool x =>
    cases b with
    | bool y =>
      simp only [compare_bool] at h
      rw [Std.LawfulEqOrd.eq_of_compare h]
    | _ => simp [rank] at hr
  | str s =>
    cases b with
    | str t =>
      simp only [compare_str] at h
      rw [Std.LawfulEqOrd.eq_of_compare h]
    | _ => simp [rank] at hr
  | null =>
    cases b with
    | null => rfl
    | _ => simp [rank] at hr
  | obj fs =>
    cases b with
    | obj gs => cases c <;> rfl
    | _ => simp [rank] at hr

theorem compareItems_lt {xs : List Json}
    (h : ∀ x ∈ xs, ∀ y z, compare x y = .lt → (compare y z).isLE → compare x z = .lt)
    {ys zs : List Json} (hxy : compareItems xs ys = .lt) (hyz : (compareItems ys zs).isLE) :
    compareItems xs zs = .lt := by
  induction xs generalizing ys zs with
  | nil =>
    cases zs with
    | nil => cases ys <;> simp [compareItems] at hxy hyz
    | cons => rfl
  | cons x xs ih =>
    cases ys with
    | nil => simp [compareItems] at hxy
    | cons y ys =>
      cases zs with
      | nil => simp [compareItems] at hyz
      | cons z zs =>
        rw [compareItems, Ordering.then_eq_lt] at hxy ⊢
        rw [compareItems, Ordering.isLE_then_iff_or] at hyz
        obtain hlt | ⟨heq, hrest⟩ := hxy
        · obtain hyz | ⟨hyz, -⟩ := hyz
          · exact .inl (h x (by simp) y z hlt (by rw [hyz]; rfl))
          · exact .inl (h x (by simp) y z hlt (by rw [hyz]; rfl))
        · rw [compare_congr heq z]
          obtain hyz | ⟨hyz, hle⟩ := hyz
          · exact .inl hyz
          · exact .inr ⟨hyz, ih (fun w hw => h w (by simp [hw])) hrest hle⟩

theorem compare_lt_of_kinds {a b c : Json} (hab : compare a b = .lt) (hbc : (compare b c).isLE)
    (h : a.rank = b.rank → b.rank = c.rank → compare a c = .lt) : compare a c = .lt := by
  have h₁ := rank_le_of_compare_isLE (Ordering.isLE_of_eq_lt hab)
  have h₂ := rank_le_of_compare_isLE hbc
  by_cases hr : a.rank = c.rank
  · exact h (by omega) (by omega)
  · rw [compare_of_rank_ne hr]
    exact Nat.compare_eq_lt.mpr (by omega)

theorem compare_lt_of_lt_of_isLE {a b c : Json} (hab : compare a b = .lt)
    (hbc : (compare b c).isLE) : compare a c = .lt := by
  induction a using induct generalizing b c with
  | arr xs ih =>
    refine compare_lt_of_kinds hab hbc fun hb hc => ?_
    cases b with
    | arr ys =>
      cases c with
      | arr zs =>
        simp only [compare_arr] at hab hbc ⊢
        exact compareItems_lt (fun x hx y z hxy hyz => ih x hx hxy hyz) hab hbc
      | _ => simp [rank] at hc
    | _ => simp [rank] at hb
  | num m =>
    refine compare_lt_of_kinds hab hbc fun hb hc => ?_
    cases b with
    | num n =>
      cases c with
      | num k =>
        simp only [compare_num] at hab hbc ⊢
        exact Std.TransCmp.lt_of_lt_of_isLE hab hbc
      | _ => simp [rank] at hc
    | _ => simp [rank] at hb
  | bool x =>
    refine compare_lt_of_kinds hab hbc fun hb hc => ?_
    cases b with
    | bool y =>
      cases c with
      | bool z =>
        simp only [compare_bool] at hab hbc ⊢
        exact Std.TransCmp.lt_of_lt_of_isLE hab hbc
      | _ => simp [rank] at hc
    | _ => simp [rank] at hb
  | str s =>
    refine compare_lt_of_kinds hab hbc fun hb hc => ?_
    cases b with
    | str t =>
      cases c with
      | str u =>
        simp only [compare_str] at hab hbc ⊢
        exact Std.TransCmp.lt_of_lt_of_isLE hab hbc
      | _ => simp [rank] at hc
    | _ => simp [rank] at hb
  | null =>
    refine compare_lt_of_kinds hab hbc fun hb _ => ?_
    cases b with
    | null => nomatch hab
    | _ => simp [rank] at hb
  | obj fs =>
    refine compare_lt_of_kinds hab hbc fun hb _ => ?_
    cases b with
    | obj gs => nomatch hab
    | _ => simp [rank] at hb

instance : Std.TransCmp compare where
  eq_swap := compare_swap _ _
  isLE_trans {a b c} hab hbc := by
    obtain hlt | heq := Ordering.isLE_iff_eq_lt_or_eq_eq.mp hab
    · exact Ordering.isLE_of_eq_lt (compare_lt_of_lt_of_isLE hlt hbc)
    · rwa [compare_congr heq]

instance : Std.TransCmp compareOptional where
  eq_swap {a b} := by
    cases a <;> cases b <;> first | rfl | exact compare_swap _ _
  isLE_trans {a b c} hab hbc := by
    cases a with
    | none => cases c <;> rfl
    | some x =>
      cases b with
      | none => simp [compareOptional] at hab
      | some y =>
        cases c with
        | none => simp [compareOptional] at hbc
        | some z => exact @Std.TransCmp.isLE_trans _ compare _ _ _ _ hab hbc

end Clientele.Json
