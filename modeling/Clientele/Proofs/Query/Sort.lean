import Clientele.Query.Sort
import Clientele.Proofs.Document.SameKind
import Clientele.Proofs.StableSort

/-!
Comparing documents by sort keys is a total preorder, as comparing values is, and sorting by the
keys is the stable sort of that order.
-/
set_option autoImplicit false

namespace Clientele.Query

theorem Direction.apply_eq_swap (d : Direction) (o : Ordering) :
    d.apply o.swap = (d.apply o).swap := by
  cases d <;> rfl

instance (k : SortKey) : Std.TransCmp k.compare where
  eq_swap {a b} := by
    have h : Json.compareOptional (a.at? k.path) (b.at? k.path) =
        (Json.compareOptional (b.at? k.path) (a.at? k.path)).swap := Std.OrientedCmp.eq_swap
    rw [SortKey.compare, SortKey.compare, h, Direction.apply_eq_swap]
  isLE_trans {a b c} hab hbc := by
    unfold SortKey.compare at *
    cases hk : k.direction with
    | ascending =>
      simp only [hk, Direction.apply] at *
      exact Std.TransCmp.isLE_trans hab hbc
    | descending =>
      simp only [hk, Direction.apply, Ordering.isLE_swap] at *
      exact Std.TransCmp.isGE_trans hab hbc

theorem compareBy_cons (k : SortKey) (ks : List SortKey) :
    compareBy (k :: ks) = compareLex k.compare (compareBy ks) := by
  funext a b
  rfl

instance compareBy.instTransCmp (ks : List SortKey) : Std.TransCmp (compareBy ks) := by
  induction ks with
  | nil => exact { eq_swap := rfl, isLE_trans := fun _ _ => rfl }
  | cons k ks ih => rw [compareBy_cons]; infer_instance

/-- A comparison that puts all things in a row, where some may share a place. -/
structure IsPreordering {α : Type} (cmp : α → α → Ordering) : Prop where
  self (a : α) : cmp a a = .eq
  swap (a b : α) : cmp b a = (cmp a b).swap
  trans (a b c : α) : (cmp a b).isLE → (cmp b c).isLE → (cmp a c).isLE
  congr (a b c d : α) : cmp a b = .eq → cmp c d = .eq → cmp a c = cmp b d

theorem isPreordering_of_transCmp {α : Type} (cmp : α → α → Ordering) [Std.TransCmp cmp] :
    IsPreordering cmp where
  self _ := Std.ReflCmp.compare_self
  swap _ _ := Std.OrientedCmp.eq_swap
  trans _ _ _ := Std.TransCmp.isLE_trans
  congr _ _ _ _ hab hcd := (Std.TransCmp.congr_left hab).trans (Std.TransCmp.congr_right hcd)

/-- Values are ranked, and so are values that may be missing, and documents by any sort keys. The
comparison within a kind says what the ranking says wherever it says something, which is where the
values are comparable. -/
theorem compare_isPreordering :
    IsPreordering Json.compare ∧ IsPreordering Json.compareOptional ∧
    (∀ ks : List SortKey, IsPreordering (compareBy ks)) ∧
    ∀ (a b : Json) (o : Ordering),
      Json.compareSameKind? a b = some o ↔ Json.Comparable a b ∧ Json.compare a b = o :=
  ⟨isPreordering_of_transCmp _, isPreordering_of_transCmp _, fun _ => isPreordering_of_transCmp _,
    fun _ _ _ => Json.compareSameKind?_eq_some_iff⟩

/-- Documents are sorted stably by the keys. -/
theorem stablySorted_sortBy (ks : List SortKey) (docs : List Json) :
    StablySorted (compareBy ks) docs (sortBy ks docs) := by
  have hle : (fun a b => compareBy ks a b != .gt) = fun a b => (compareBy ks a b).isLE := by
    funext a b
    cases compareBy ks a b <;> rfl
  rw [sortBy, hle]
  exact stablySorted_mergeSort docs

theorem stablySorted_nil_iff {docs sorted : List Json} :
    StablySorted (compareBy []) docs sorted ↔ sorted = docs := by
  constructor
  · intro h
    simpa [compareBy, List.filter_eq_self.mpr] using h.stable .null
  · rintro rfl
    exact ⟨.refl _, List.pairwise_of_forall fun _ _ => rfl, fun _ => rfl⟩

end Clientele.Query
