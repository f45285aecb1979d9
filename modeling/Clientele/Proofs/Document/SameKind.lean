import Clientele.Proofs.Document.Order
import Clientele.Proofs.Json.Equality

/-!
The order for conditions agrees with the order for sorting wherever it compares two values: scalars
of one kind, and lists and objects that are equal.
-/
set_option autoImplicit false

namespace Clientele.Json

theorem compareItems_of_same {xs : List Json} (h : ∀ x ∈ xs, ∀ y, same x y → compare x y = .eq)
    {ys : List Json} (hxy : sameItems xs ys) : compareItems xs ys = .eq := by
  induction xs generalizing ys with
  | nil =>
    cases ys with
    | nil => rfl
    | cons => simp [sameItems] at hxy
  | cons x xs ih =>
    cases ys with
    | nil => simp [sameItems] at hxy
    | cons y ys =>
      rw [List.forall_mem_cons] at h
      rw [sameItems, Bool.and_eq_true] at hxy
      rw [compareItems, h.1 y hxy.1, ih h.2 hxy.2]
      rfl

theorem compare_of_same {a b : Json} (h : same a b) : compare a b = .eq := by
  induction a using induct generalizing b with
  | arr xs ih =>
    cases b with
    | arr ys =>
      rw [same] at h
      rw [compare_arr]
      exact compareItems_of_same (fun x hx y hxy => ih x hx hxy) h
    | _ => simp [same] at h
  | num m =>
    cases b with
    | num n =>
      rw [same] at h
      rw [compare_num]
      exact Number.compare_of_same h
    | _ => simp [same] at h
  | bool x =>
    cases b with
    | bool y =>
      rw [same, beq_iff_eq] at h
      rw [compare_bool, h]
      exact Std.ReflOrd.compare_self
    | _ => simp [same] at h
  | str s =>
    cases b with
    | str t =>
      rw [same, beq_iff_eq] at h
      rw [compare_str, h]
      exact Std.ReflOrd.compare_self
    | _ => simp [same] at h
  | null | obj fs => cases b <;> first | rfl | simp [same] at h

def Comparable (a b : Json) : Prop := (a.isScalar ∧ a.rank = b.rank) ∨ same a b

theorem compareSameKind?_eq_some_iff {a b : Json} {o : Ordering} :
    compareSameKind? a b = some o ↔ Comparable a b ∧ compare a b = o := by
  cases a with
  | arr xs =>
    cases b with
    | arr ys =>
      by_cases h : same (.arr xs) (.arr ys)
      · simp [compareSameKind?, Comparable, h, compare_of_same h]
      · simp [compareSameKind?, Comparable, isScalar, h]
    | _ => simp [compareSameKind?, Comparable, isScalar, same]
  | obj fs =>
    cases b with
    | obj gs =>
      by_cases h : same (.obj fs) (.obj gs)
      · simp [compareSameKind?, Comparable, h, compare_of_same h]
      · simp [compareSameKind?, Comparable, isScalar, h]
    | _ => simp [compareSameKind?, Comparable, isScalar, same]
  | null => cases b <;> simp [compareSameKind?, Comparable, isScalar, rank, same, compare]
  | bool | num | str => cases b <;> simp [compareSameKind?, Comparable, isScalar, rank, same]

namespace Comparable

variable {a b c : Json}

theorem rank_eq (h : Comparable a b) : a.rank = b.rank := by
  rcases h with ⟨-, hrank⟩ | hsame
  · exact hrank
  · exact rank_eq_of_compare_eq (compare_of_same hsame)

theorem isScalar_eq (h : Comparable a b) : a.isScalar = b.isScalar := by
  have hrank := h.rank_eq
  cases a <;> cases b <;> first | rfl | simp [rank] at hrank

theorem trans (hab : Comparable a b) (hbc : Comparable b c) : Comparable a c := by
  rcases hab with ⟨hscalar, hrank⟩ | hsame
  · exact .inl ⟨hscalar, hrank.trans hbc.rank_eq⟩
  · rcases hbc with ⟨hscalar, hrank⟩ | hsame'
    · have hab : Comparable a b := .inr hsame
      exact .inl ⟨hab.isScalar_eq.trans hscalar, hab.rank_eq.trans hrank⟩
    · exact .inr (same_trans hsame hsame')

theorem symm (ha : a.collapse = a) (hb : b.collapse = b) (h : Comparable a b) : Comparable b a := by
  rcases h with ⟨hscalar, hrank⟩ | hsame
  · have hab : Comparable a b := .inl ⟨hscalar, hrank⟩
    exact .inl ⟨hab.isScalar_eq.symm.trans hscalar, hrank.symm⟩
  · exact .inr (same_symm ha hb hsame)

end Comparable

end Clientele.Json
