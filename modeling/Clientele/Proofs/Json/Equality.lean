import Mathlib.Data.List.Perm.Subperm
import Clientele.Proofs.Json.Storable

/-!
Equality of values is transitive, and symmetric where no object has a key twice: of two objects with
as many keys, each key of the one being a key of the other, both have the same keys.
-/
set_option autoImplicit false

namespace Clientele

namespace Number

variable {a b c : Number}

theorem same_symm (h : a.same b) : b.same a := by
  cases a <;> cases b <;> simp_all [same]

theorem same_trans (hab : a.same b) (hbc : b.same c) : a.same c := by
  cases a <;> cases b <;> cases c <;> simp_all [same]

theorem compare_of_same (h : a.same b) : a.compare b = .eq := by
  cases a <;> cases b <;> simp_all [same, compare, toFloat]

end Number

namespace Json

theorem sameFields_iff {fs gs : Fields} :
    sameFields fs gs ↔ ∀ f ∈ fs, ∃ w, Fields.get? gs f.1 = some w ∧ same f.2 w := by
  induction fs with
  | nil => simp [sameFields]
  | cons f fs ih =>
    obtain ⟨k, v⟩ := f
    rw [List.forall_mem_cons, ← ih, sameFields, Bool.and_eq_true]
    cases Fields.get? gs k <;> simp

theorem same_obj_iff {fs gs : Fields} :
    same (.obj fs) (.obj gs) ↔ fs.length = gs.length ∧
      ∀ f ∈ fs, ∃ w, Fields.get? gs f.1 = some w ∧ same f.2 w := by
  rw [same, Bool.and_eq_true, beq_iff_eq, sameFields_iff]

theorem sameItems_trans {xs : List Json}
    (h : ∀ x ∈ xs, ∀ y z, same x y → same y z → same x z) {ys zs : List Json}
    (hxy : sameItems xs ys) (hyz : sameItems ys zs) : sameItems xs zs := by
  induction xs generalizing ys zs with
  | nil => cases ys <;> simp_all [sameItems]
  | cons x xs ih =>
    rw [List.forall_mem_cons] at h
    cases ys with
    | nil => simp [sameItems] at hxy
    | cons y ys =>
      cases zs with
      | nil => simp [sameItems] at hyz
      | cons z zs =>
        rw [sameItems, Bool.and_eq_true] at hxy hyz ⊢
        exact ⟨h.1 y z hxy.1 hyz.1, ih h.2 hxy.2 hyz.2⟩

theorem same_trans {a b c : Json} (hab : same a b) (hbc : same b c) : same a c := by
  induction a using induct generalizing b c with
  | obj fs ih =>
    cases b with
    | obj gs =>
      cases c with
      | obj hs =>
        obtain ⟨hlength, hfields⟩ := same_obj_iff.mp hab
        obtain ⟨hlength', hfields'⟩ := same_obj_iff.mp hbc
        refine same_obj_iff.mpr ⟨hlength.trans hlength', fun f hf => ?_⟩
        obtain ⟨v, hv, hfv⟩ := hfields f hf
        obtain ⟨w, hw, hvw⟩ := hfields' (f.1, v) (Fields.mem_of_get? hv)
        exact ⟨w, hw, ih f hf hfv hvw⟩
      | _ => simp [same] at hbc
    | _ => simp [same] at hab
  | arr xs ih =>
    cases b with
    | arr ys =>
      cases c with
      | arr zs =>
        rw [same] at hab hbc ⊢
        exact sameItems_trans (fun x hx y z hxy hyz => ih x hx hxy hyz) hab hbc
      | _ => simp [same] at hbc
    | _ => simp [same] at hab
  | num m =>
    cases b with
    | num n =>
      cases c with
      | num k =>
        rw [same] at hab hbc ⊢
        exact Number.same_trans hab hbc
      | _ => simp [same] at hbc
    | _ => simp [same] at hab
  | null | bool x | str s => cases b <;> cases c <;> simp_all [same]

theorem sameItems_symm {xs : List Json} (h : ∀ x ∈ xs, ∀ y, y.collapse = y → same x y → same y x)
    {ys : List Json} (hys : ∀ y ∈ ys, y.collapse = y) (hxy : sameItems xs ys) : sameItems ys xs := by
  induction xs generalizing ys with
  | nil => cases ys <;> simp_all [sameItems]
  | cons x xs ih =>
    cases ys with
    | nil => simp [sameItems] at hxy
    | cons y ys =>
      rw [List.forall_mem_cons] at h hys
      rw [sameItems, Bool.and_eq_true] at hxy ⊢
      exact ⟨h.1 y hys.1 hxy.1, ih h.2 hys.2 hxy.2⟩

theorem keys_subset_of_same {fs gs : Fields} (hfs : fs.keys.Nodup)
    (h : same (.obj fs) (.obj gs)) : gs.keys ⊆ fs.keys := by
  obtain ⟨hlength, hfields⟩ := same_obj_iff.mp h
  have hsubset : fs.keys ⊆ gs.keys := by
    intro key hkey
    obtain ⟨f, hf, rfl⟩ := List.mem_map.mp hkey
    obtain ⟨w, hw, -⟩ := hfields f hf
    exact List.mem_map.mpr ⟨(f.1, w), Fields.mem_of_get? hw, rfl⟩
  -- with as many keys on both sides, those of `fs` leave no room for another in `gs`
  have hle : gs.keys.length ≤ fs.keys.length := by simp [Fields.keys, hlength]
  exact ((List.subperm_of_subset hfs hsubset).perm_of_length_le hle).symm.subset

theorem same_symm {a b : Json} (ha : a.collapse = a) (hb : b.collapse = b) (h : same a b) :
    same b a := by
  induction a using induct generalizing b with
  | obj fs ih =>
    cases b with
    | obj gs =>
      rw [collapse_obj_eq_self] at ha hb
      have hkeys := keys_subset_of_same ha.1 h
      obtain ⟨hlength, hfields⟩ := same_obj_iff.mp h
      refine same_obj_iff.mpr ⟨hlength.symm, fun g hg => ?_⟩
      obtain ⟨f, hf, hkey⟩ := List.mem_map.mp (hkeys (Fields.mem_keys hg))
      obtain ⟨w, hw, hfw⟩ := hfields f hf
      rw [hkey, Fields.get?_of_mem hb.1 hg, Option.some.injEq] at hw
      subst hw
      exact ⟨f.2, hkey ▸ Fields.get?_of_mem ha.1 hf, ih f hf (ha.2 f hf) (hb.2 g hg) hfw⟩
    | _ => simp [same] at h
  | arr xs ih =>
    cases b with
    | arr ys =>
      rw [collapse_arr_eq_self] at ha hb
      rw [same] at h ⊢
      exact sameItems_symm (fun x hx y hy hxy => ih x hx (ha x hx) hy hxy) hb h
    | _ => simp [same] at h
  | num m =>
    cases b with
    | num n =>
      rw [same] at h ⊢
      exact Number.same_symm h
    | _ => simp [same] at h
  | null | bool x | str s => cases b <;> simp_all [same]

end Json

end Clientele
