import Clientele.Proofs.Decimal.Value
import Clientele.Proofs.Document.Order
import Clientele.Proofs.Json.Number

/-!
Agreement of values, with numbers taken for what they stand for. The order for sorting sees less of
values than they are: of a number it sees the double, and of an object that it is one. What it finds
alike are the values that agree when they are seen like this.
-/
set_option autoImplicit false

namespace Clientele

namespace Number

/-- What a number stands for. -/
def value : Number → ℚ
  | .whole n => n.val
  | .real x => Decimal.value x.val

def rounded (n : Number) : ℚ := Decimal.value n.toFloat

def IsExact : Number → Prop
  | .whole n => Decimal.IsExact n.val.natAbs
  | .real _ => True

instance : DecidablePred IsExact
  | .whole n => inferInstanceAs (Decidable (Decimal.IsExact n.val.natAbs))
  | .real _ => .isTrue trivial

variable {m n : Number}

theorem compare_rounded (m n : Number) : m.compare n = Ord.compare m.rounded n.rounded :=
  Decimal.compare_place _ _

theorem compare_eq_eq : m.compare n = .eq ↔ m.rounded = n.rounded := by
  rw [compare_rounded]
  exact compare_eq_iff_eq

theorem rounded_of_isExact (h : n.IsExact) : n.rounded = n.value := by
  cases n with
  | whole w =>
    have hlower := w.lower
    have hupper := w.upper
    exact Decimal.value_ofInt h (by omega)
  | real x => rfl

theorem rounded_eq_of_value_eq (h : m.value = n.value) : m.rounded = n.rounded := by
  have hmixed {w : Whole} {x : Finite} (h : (Number.whole w).value = (Number.real x).value) :
      (Number.whole w).rounded = (Number.real x).rounded := by
    have hexact : (Number.whole w).IsExact := Decimal.isExact_of_value h.symm
    exact (rounded_of_isExact hexact).trans h
  cases m with
  | whole w =>
    cases n with
    | whole w' =>
      have hval : w.val = w'.val := Int.cast_injective h
      rw [rounded, rounded, toFloat, toFloat, hval]
    | real x => exact hmixed h
  | real x =>
    cases n with
    | whole w => exact (hmixed h.symm).symm
    | real x' => exact h

end Number

namespace Json

mutual

/-- Whether two values are of one kind and hold the same, with numbers taken for their `value`.
Objects hold the same if they have the same keys, in whatever order, with values that agree. -/
def agree (value : Number → ℚ) : Json → Json → Bool
  | .null, .null => true
  | .bool a, .bool b => a == b
  | .num m, .num n => value m == value n
  | .str a, .str b => a == b
  | .arr xs, .arr ys => agreeItems value xs ys
  | .obj fs, .obj gs => fs.length == gs.length && agreeFields value fs gs
  | _, _ => false

def agreeItems (value : Number → ℚ) : List Json → List Json → Bool
  | [], [] => true
  | x :: xs, y :: ys => agree value x y && agreeItems value xs ys
  | _, _ => false

def agreeFields (value : Number → ℚ) : List (String × Json) → List (String × Json) → Bool
  | [], _ => true
  | (k, v) :: fs, gs =>
    (match Fields.get? gs k with
      | some w => agree value v w
      | none => false) && agreeFields value fs gs

end

mutual

def emptied : Json → Json
  | .arr xs => .arr (emptiedItems xs)
  | .obj _ => .obj []
  | v => v

def emptiedItems : List Json → List Json
  | [] => []
  | x :: xs => emptied x :: emptiedItems xs

end

def seenAlike (v w : Json) : Bool := agree Number.rounded v.emptied w.emptied

theorem compareItems_eq_eq {xs : List Json} (h : ∀ x ∈ xs, ∀ y, compare x y = .eq ↔ seenAlike x y)
    (ys : List Json) : compareItems xs ys = .eq ↔
      agreeItems Number.rounded (emptiedItems xs) (emptiedItems ys) := by
  induction xs generalizing ys with
  | nil => cases ys <;> simp [compareItems, emptiedItems, agreeItems]
  | cons x xs ih =>
    rw [List.forall_mem_cons] at h
    cases ys with
    | nil => simp [compareItems, emptiedItems, agreeItems]
    | cons y ys =>
      rw [compareItems, Ordering.then_eq_eq, h.1, ih h.2, emptiedItems, emptiedItems, agreeItems,
        Bool.and_eq_true, seenAlike]

theorem rank_eq_of_seenAlike {v w : Json} (h : seenAlike v w) : v.rank = w.rank := by
  cases v <;> cases w <;> first | rfl | cases h

theorem compare_eq_eq (v w : Json) : compare v w = .eq ↔ seenAlike v w := by
  have hkinds {v w : Json} (h : v.rank ≠ w.rank) : compare v w = .eq ↔ seenAlike v w :=
    iff_of_false (mt rank_eq_of_compare_eq h) (mt rank_eq_of_seenAlike h)
  induction v using induct generalizing w with
  | null =>
    cases w with
    | null => exact iff_of_true rfl rfl
    | _ => exact hkinds nofun
  | bool a =>
    cases w with
    | bool b => simp [compare_bool, seenAlike, emptied, agree]
    | _ => exact hkinds nofun
  | num m =>
    cases w with
    | num n => simp [compare_num, Number.compare_eq_eq, seenAlike, emptied, agree]
    | _ => exact hkinds nofun
  | str a =>
    cases w with
    | str b => simp [compare_str, seenAlike, emptied, agree]
    | _ => exact hkinds nofun
  | arr xs ih =>
    cases w with
    | arr ys => exact compare_arr xs ys ▸ compareItems_eq_eq ih ys
    | _ => exact hkinds nofun
  | obj fs =>
    cases w with
    | obj gs => exact iff_of_true rfl rfl
    | _ => exact hkinds nofun

theorem agreeItems_emptied {xs : List Json} (h : ∀ x ∈ xs, ∀ y, agree Number.value x y → seenAlike x y)
    {ys : List Json} (hxy : agreeItems Number.value xs ys) :
    agreeItems Number.rounded (emptiedItems xs) (emptiedItems ys) := by
  induction xs generalizing ys with
  | nil => cases ys <;> simp_all [agreeItems, emptiedItems]
  | cons x xs ih =>
    cases ys with
    | nil => simp [agreeItems] at hxy
    | cons y ys =>
      rw [List.forall_mem_cons] at h
      rw [agreeItems, Bool.and_eq_true] at hxy
      rw [emptiedItems, emptiedItems, agreeItems, Bool.and_eq_true]
      exact ⟨h.1 y hxy.1, ih h.2 hxy.2⟩

theorem seenAlike_of_agree {v w : Json} (h : agree Number.value v w) : seenAlike v w := by
  induction v using induct generalizing w with
  | arr xs ih =>
    cases w with
    | arr ys => exact agreeItems_emptied (fun x hx y hxy => ih x hx hxy) h
    | _ => simp [agree] at h
  | num m =>
    cases w with
    | num n =>
      rw [agree, beq_iff_eq] at h
      simp [seenAlike, emptied, agree, Number.rounded_eq_of_value_eq h]
    | _ => simp [agree] at h
  | obj fs => cases w <;> first | rfl | cases h
  -- apart from numbers and objects it is the same agreement
  | null | bool | str => cases w <;> exact h

/-- Whether a value is seen as it is: there is no object in it that is not empty, and its numbers
have doubles of their own. -/
def IsPlain (v : Json) : Prop := v.emptied = v ∧ v.AllNumbers Number.IsExact

instance (v : Json) : Decidable v.IsPlain := inferInstanceAs (Decidable (_ ∧ _))

theorem emptiedItems_eq_self {xs : List Json} :
    emptiedItems xs = xs ↔ ∀ x ∈ xs, x.emptied = x := by
  induction xs with
  | nil => simp [emptiedItems]
  | cons x xs ih => simp [emptiedItems, ih]

theorem isPlain_arr {xs : List Json} : (Json.arr xs).IsPlain ↔ ∀ x ∈ xs, x.IsPlain := by
  rw [IsPlain, emptied, Json.arr.injEq, emptiedItems_eq_self, AllNumbers, allItemNumbers_iff,
    ← forall₂_and]
  rfl

theorem agreeItems_of_plain {xs : List Json} (h : ∀ x ∈ xs, ∀ y, y.IsPlain → seenAlike x y →
    agree Number.value x y) {ys : List Json} (hys : ∀ y ∈ ys, y.IsPlain)
    (hxy : agreeItems Number.rounded (emptiedItems xs) (emptiedItems ys)) :
    agreeItems Number.value xs ys := by
  induction xs generalizing ys with
  | nil => cases ys <;> simp_all [agreeItems, emptiedItems]
  | cons x xs ih =>
    cases ys with
    | nil => simp [agreeItems, emptiedItems] at hxy
    | cons y ys =>
      rw [List.forall_mem_cons] at h hys
      rw [emptiedItems, emptiedItems, agreeItems, Bool.and_eq_true] at hxy
      rw [agreeItems, Bool.and_eq_true]
      exact ⟨h.1 y hys.1 hxy.1, ih h.2 hys.2 hxy.2⟩

/-- Plain values that are found alike agree. -/
theorem agree_of_seenAlike {v w : Json} (hv : v.IsPlain) (hw : w.IsPlain) (h : seenAlike v w) :
    agree Number.value v w := by
  induction v using induct generalizing w with
  | arr xs ih =>
    cases w with
    | arr ys =>
      rw [isPlain_arr] at hv hw
      exact agreeItems_of_plain (fun x hx y hy hxy => ih x hx (hv x hx) hy hxy) hw h
    | _ => simp [agree, seenAlike, emptied] at h
  | num m =>
    cases w with
    | num n =>
      simp only [seenAlike, emptied, agree, beq_iff_eq] at h
      rw [agree, beq_iff_eq, ← Number.rounded_of_isExact hv.2, h, Number.rounded_of_isExact hw.2]
    | _ => simp [agree, seenAlike, emptied] at h
  | obj fs =>
    obtain rfl : fs = [] := by simpa [emptied, eq_comm] using hv.1
    cases w with
    | obj gs =>
      obtain rfl : gs = [] := by simpa [emptied, eq_comm] using hw.1
      rfl
    | _ => simp [agree, seenAlike, emptied] at h
  | null | bool | str => cases w <;> exact h

end Json

end Clientele
