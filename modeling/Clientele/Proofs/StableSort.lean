/-!
What a stable sort is: the same items, in order, with the items that are alike in the order in which
they came. Merge sort is one, and there is no other.
-/
set_option autoImplicit false

namespace Clientele

variable {α : Type} {cmp : α → α → Ordering}

/-- The items of `xs` sorted by `cmp`; those that are alike stand as they stand in `xs`. -/
structure StablySorted (cmp : α → α → Ordering) (xs ys : List α) : Prop where
  perm : ys.Perm xs
  ordered : ys.Pairwise fun a b => (cmp a b).isLE
  stable : ∀ a, ys.filter (cmp a · == .eq) = xs.filter (cmp a · == .eq)

theorem eq_of_perm_of_ordered [Std.TransCmp cmp] {ys zs : List α} (perm : ys.Perm zs)
    (hys : ys.Pairwise fun a b => (cmp a b).isLE) (hzs : zs.Pairwise fun a b => (cmp a b).isLE)
    (stable : ∀ a, ys.filter (cmp a · == .eq) = zs.filter (cmp a · == .eq)) : ys = zs := by
  induction ys generalizing zs with
  | nil => exact perm.nil_eq
  | cons y ys ih =>
    cases zs with
    | nil => exact absurd perm.length_eq (by simp)
    | cons z zs =>
      obtain ⟨hy, hys⟩ := List.pairwise_cons.mp hys
      obtain ⟨hz, hzs'⟩ := List.pairwise_cons.mp hzs
      have hyz : (cmp y z).isLE := by
        rcases List.mem_cons.mp (perm.mem_iff.mpr List.mem_cons_self) with rfl | h
        · exact Ordering.isLE_of_eq_eq Std.ReflCmp.compare_self
        · exact hy z h
      have hzy : (cmp z y).isLE := by
        rcases List.mem_cons.mp (perm.mem_iff.mp List.mem_cons_self) with rfl | h
        · exact Ordering.isLE_of_eq_eq Std.ReflCmp.compare_self
        · exact hz y h
      have heq : cmp y z = .eq := Std.OrientedCmp.isLE_antisymm hyz hzy
      have hhead := stable y
      simp only [List.filter_cons, Std.ReflCmp.compare_self, heq, beq_self_eq_true, if_true,
        List.cons.injEq] at hhead
      obtain ⟨rfl, -⟩ := hhead
      congr 1
      refine ih (List.Perm.cons_inv perm) hys hzs' fun a => ?_
      have ha := stable a
      by_cases h : cmp a y = .eq <;> simpa [List.filter_cons, h] using ha

theorem StablySorted.unique [Std.TransCmp cmp] {xs ys zs : List α} (hy : StablySorted cmp xs ys)
    (hz : StablySorted cmp xs zs) : ys = zs :=
  eq_of_perm_of_ordered (hy.perm.trans hz.perm.symm) hy.ordered hz.ordered fun a =>
    (hy.stable a).trans (hz.stable a).symm

theorem StablySorted.eq_of_alike {xs ys : List α} (h : StablySorted cmp xs ys)
    (halike : ∀ a ∈ xs, ∀ b ∈ xs, cmp a b = .eq) : ys = xs := by
  cases xs with
  | nil => exact h.perm.eq_nil
  | cons x xs =>
    have hall : ∀ a ∈ x :: xs, (cmp x a == .eq) = true := fun a ha =>
      beq_iff_eq.mpr (halike x List.mem_cons_self a ha)
    have hstable := h.stable x
    rwa [List.filter_eq_self.mpr hall,
      List.filter_eq_self.mpr fun a ha => hall a (h.perm.subset ha)] at hstable

theorem StablySorted.pairwise [Std.ReflCmp cmp] {xs ys : List α} {R : α → α → Prop}
    (h : StablySorted cmp xs ys) (hxs : xs.Pairwise R) :
    ys.Pairwise fun a b => cmp a b = .lt ∨ cmp a b = .eq ∧ R a b := by
  refine List.pairwise_iff_forall_sublist.mpr fun {a b} hab => ?_
  have hle := List.pairwise_iff_forall_sublist.mp h.ordered hab
  cases heq : cmp a b with
  | lt => exact .inl rfl
  | gt => simp [heq] at hle
  | eq =>
    -- Both are alike to `a`, and what is alike to `a` has kept its order.
    have hpart := hab.filter (cmp a · == .eq)
    rw [h.stable a] at hpart
    simp only [List.filter_cons, Std.ReflCmp.compare_self, heq, beq_self_eq_true, if_true,
      List.filter_nil] at hpart
    exact .inr ⟨rfl, List.pairwise_iff_forall_sublist.mp hxs (hpart.trans List.filter_sublist)⟩

section MergeSort

variable [Std.TransCmp cmp]

theorem isLE_total (a b : α) : ((cmp a b).isLE || (cmp b a).isLE) = true := by
  have h : cmp b a = (cmp a b).swap := Std.OrientedCmp.eq_swap
  rw [h]
  cases cmp a b <;> rfl

theorem filter_mergeSort (xs : List α) (a : α) :
    (xs.mergeSort fun a b => (cmp a b).isLE).filter (cmp a · == .eq) =
      xs.filter (cmp a · == .eq) := by
  have hpart : (xs.filter (cmp a · == .eq)).Pairwise fun a b => (cmp a b).isLE := by
    refine List.pairwise_of_forall_mem_list fun b hb c hc => ?_
    have hb := eq_of_beq (List.mem_filter.mp hb).2
    have hc := eq_of_beq (List.mem_filter.mp hc).2
    rw [Std.TransCmp.congr_left (Std.OrientedCmp.eq_symm hb), hc]
    rfl
  have hsub : (xs.filter (cmp a · == .eq)).Sublist (xs.mergeSort fun a b => (cmp a b).isLE) :=
    List.sublist_mergeSort (fun _ _ _ => Std.TransCmp.isLE_trans) isLE_total hpart
      List.filter_sublist
  have hperm := (List.mergeSort_perm xs fun a b => (cmp a b).isLE).filter (cmp a · == .eq)
  have hfilter := hsub.filter (cmp a · == .eq)
  rw [List.filter_filter] at hfilter
  simp only [Bool.and_self] at hfilter
  exact (hfilter.eq_of_length hperm.length_eq.symm).symm

theorem stablySorted_mergeSort (xs : List α) :
    StablySorted cmp xs (xs.mergeSort fun a b => (cmp a b).isLE) where
  perm := List.mergeSort_perm xs _
  ordered := List.pairwise_mergeSort (fun _ _ _ => Std.TransCmp.isLE_trans) isLE_total xs
  stable := filter_mergeSort xs

end MergeSort

theorem pairwise_mergeSort_le {α : Type} (f : α → String) (xs : List α) :
    (xs.mergeSort fun a b => f a ≤ f b).Pairwise fun a b => f a ≤ f b := by
  refine (List.pairwise_mergeSort ?_ ?_ _).imp of_decide_eq_true
  · intro a b c hab hbc
    exact decide_eq_true (String.le_trans (of_decide_eq_true hab) (of_decide_eq_true hbc))
  · intro a b
    rw [Bool.or_eq_true, decide_eq_true_eq, decide_eq_true_eq]
    exact String.le_total ..

end Clientele
