import Clientele.Json.Value

/-!
Induction on values, with the items of a list and the values under the keys of an object as
hypotheses; by it, equality of values as they are written can be decided.
-/
set_option autoImplicit false

namespace Clientele.Json

@[elab_as_elim]
theorem induct {motive : Json → Prop} (null : motive .null) (bool : ∀ b, motive (.bool b))
    (num : ∀ n, motive (.num n)) (str : ∀ s, motive (.str s))
    (arr : ∀ xs, (∀ x ∈ xs, motive x) → motive (.arr xs))
    (obj : ∀ fs, (∀ f ∈ fs, motive f.2) → motive (.obj fs)) (v : Json) : motive v := by
  refine Json.rec (motive_1 := motive) (motive_2 := fun xs => ∀ x ∈ xs, motive x)
    (motive_3 := fun fs => ∀ f ∈ fs, motive f.2) (motive_4 := fun f => motive f.2)
    null bool num str arr obj ?_ ?_ ?_ ?_ ?_ v
  · simp
  · intro x xs hx hxs y hy
    rcases List.mem_cons.mp hy with rfl | hy
    · exact hx
    · exact hxs y hy
  · simp
  · intro f fs hf hfs g hg
    rcases List.mem_cons.mp hg with rfl | hg
    · exact hf
    · exact hfs g hg
  · intro _ _ hv
    exact hv

mutual

def beq : Json → Json → Bool
  | .null, .null => true
  | .bool a, .bool b => a == b
  | .num a, .num b => a == b
  | .str a, .str b => a == b
  | .arr xs, .arr ys => beqItems xs ys
  | .obj fs, .obj gs => beqFields fs gs
  | _, _ => false

def beqItems : List Json → List Json → Bool
  | [], [] => true
  | x :: xs, y :: ys => beq x y && beqItems xs ys
  | _, _ => false

def beqFields : List (String × Json) → List (String × Json) → Bool
  | [], [] => true
  | (k, v) :: fs, (l, w) :: gs => k == l && beq v w && beqFields fs gs
  | _, _ => false

end

theorem beqItems_iff {xs : List Json} (h : ∀ x ∈ xs, ∀ y, beq x y ↔ x = y) (ys : List Json) :
    beqItems xs ys ↔ xs = ys := by
  induction xs generalizing ys with
  | nil => cases ys <;> simp [beqItems]
  | cons x xs ih =>
    rw [List.forall_mem_cons] at h
    cases ys with
    | nil => simp [beqItems]
    | cons y ys => simp [beqItems, h.1, ih h.2]

theorem beqFields_iff {fs : Fields} (h : ∀ f ∈ fs, ∀ w, beq f.2 w ↔ f.2 = w) (gs : Fields) :
    beqFields fs gs ↔ fs = gs := by
  induction fs generalizing gs with
  | nil => cases gs <;> simp [beqFields]
  | cons f fs ih =>
    rw [List.forall_mem_cons] at h
    cases gs with
    | nil => simp [beqFields]
    | cons g gs => simp [beqFields, h.1, ih h.2, Prod.ext_iff]

theorem beq_iff (v w : Json) : beq v w ↔ v = w := by
  induction v using Json.induct generalizing w with
  | null | bool a | num a | str a => cases w <;> simp [beq]
  | arr xs ih => cases w <;> simp [beq, beqItems_iff ih]
  | obj fs ih => cases w <;> simp [beq, beqFields_iff ih]

instance : DecidableEq Json := fun v w => decidable_of_iff _ (beq_iff v w)

end Clientele.Json
