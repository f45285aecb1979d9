import Mathlib.Algebra.BigOperators.Group.Finset.Basic
import Clientele.Proofs.Store.Alike

/-!
How many documents a store holds, one of its collections left out. A write to a collection changes
the number by as much as it changes that collection.
-/
set_option autoImplicit false

namespace Clientele.Store

def documentsBeside (s : Store) (beside : String) : Nat :=
  ∑ name ∈ s.collectionNames.toFinset.erase beside, s.countAll name

variable {s s' : Store} {name beside : String} {id : Identifier}

theorem countAll_of_not_mem (h : name ∉ s.collectionNames) : s.countAll name = 0 := by
  rw [countAll, collection_of_not_mem h]
  rfl

theorem documentsBeside_eq_sum {names : Finset String} (hbeside : beside ∉ names)
    (h : ∀ name ∈ s.collectionNames, name ≠ beside → name ∈ names) :
    s.documentsBeside beside = ∑ name ∈ names, s.countAll name := by
  refine Finset.sum_subset (fun name hname => ?_) fun name hname hmissing => ?_
  · obtain ⟨hne, hmem⟩ := Finset.mem_erase.mp hname
    exact h name (List.mem_toFinset.mp hmem) hne
  · have hne : name ≠ beside := fun heq => hbeside (heq ▸ hname)
    exact countAll_of_not_mem fun hmem =>
      hmissing (Finset.mem_erase.mpr ⟨hne, List.mem_toFinset.mpr hmem⟩)

theorem documentsBeside_congr
    (h : ∀ other, other ≠ beside → s'.countAll other = s.countAll other) :
    s'.documentsBeside beside = s.documentsBeside beside := by
  let names := (s.collectionNames ++ s'.collectionNames).toFinset.erase beside
  have hbeside : beside ∉ names := Finset.notMem_erase _ _
  rw [documentsBeside_eq_sum hbeside fun name hname hne => by simp [names, hname, hne],
    documentsBeside_eq_sum hbeside fun name hname hne => by simp [names, hname, hne]]
  exact Finset.sum_congr rfl fun other hother => h other (Finset.ne_of_mem_erase hother)

theorem countAll_put (s : Store) (name : String) (c : Collection) (other : String) :
    (s.put name c).countAll other =
      if name = other then c.documents.length else s.countAll other := by
  rw [countAll, collection_put]
  split <;> rfl

theorem documentsBeside_put (hne : name ≠ beside) (s : Store) (c : Collection) :
    (s.put name c).documentsBeside beside + s.countAll name =
      s.documentsBeside beside + c.documents.length := by
  -- The collection may be new, so both sums run over the names before and after.
  let names := {name} ∪ (s.collectionNames ++ (s.put name c).collectionNames).toFinset.erase beside
  have hbeside : beside ∉ names := by simp [names, Ne.symm hne]
  have hname : name ∈ names := by simp [names]
  have hrest : ∑ other ∈ names.erase name, (s.put name c).countAll other =
      ∑ other ∈ names.erase name, s.countAll other := by
    refine Finset.sum_congr rfl fun other hother => ?_
    rw [countAll_put, if_neg (Finset.ne_of_mem_erase hother).symm]
  rw [documentsBeside_eq_sum hbeside fun name hname hne => by simp [names, hname, hne],
    documentsBeside_eq_sum hbeside fun name hname hne => by simp [names, hname, hne],
    ← Finset.add_sum_erase names _ hname, ← Finset.add_sum_erase names s.countAll hname, hrest,
    countAll_put, if_pos rfl]
  omega

theorem documentsBeside_insert (hne : name ≠ beside) {doc : Json}
    (h : s.insert name doc = (.ok (), s')) :
    s'.documentsBeside beside = s.documentsBeside beside + 1 := by
  obtain ⟨c, hc, rfl⟩ := insert_eq_ok h
  have hlength : c.documents.length = s.countAll name + 1 := by
    obtain ⟨_, _, -, -, -, rfl⟩ := Collection.insert_eq_ok hc
    exact List.length_append
  have hput := documentsBeside_put hne s c
  omega

theorem documentsBeside_insert_of_error {doc : Json} {e : InsertError}
    (h : s.insert name doc = (.error e, s')) (beside : String) :
    s'.documentsBeside beside = s.documentsBeside beside :=
  documentsBeside_congr fun other _ => by rw [countAll, collection_insert_of_error h, countAll]

theorem countAll_update {patch : Fields} {doc? : Option Fields}
    (h : s.update name id patch = (doc?, s')) (other : String) :
    s'.countAll other = s.countAll other := by
  unfold update at h
  split at h
  · rename_i doc c hc
    cases h
    obtain ⟨_, _, -, -, -, rfl⟩ := Collection.update_eq_some hc
    rw [countAll_put]
    split
    · rename_i heq
      rw [List.length_set, countAll, heq]
    · rfl
  · cases h
    rfl

theorem documentsBeside_delete (hne : name ≠ beside) {doc : Fields}
    (h : s.delete name id = (some doc, s')) :
    s'.documentsBeside beside + 1 = s.documentsBeside beside := by
  obtain ⟨c, hc, rfl⟩ := delete_eq_some h
  have hlength : c.documents.length + 1 = s.countAll name := by
    obtain ⟨i, -, hi, rfl⟩ := Collection.delete_eq_some hc
    obtain ⟨hlt, -⟩ := List.getElem?_eq_some_iff.mp hi
    exact List.length_eraseIdx_add_one hlt
  have hput := documentsBeside_put hne s c
  omega

end Clientele.Store
