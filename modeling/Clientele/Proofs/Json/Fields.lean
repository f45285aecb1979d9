import Clientele.Json.Value

/-!
What fields hold after other fields have been written over them: the value under each key, the keys
and their order, and whether these stay distinct.
-/
set_option autoImplicit false

namespace Clientele.Fields

variable {fs : Fields}

theorem get?_set (fs : Fields) (key : String) (v : Json) (other : String) :
    (fs.set key v).get? other = if key = other then some v else fs.get? other := by
  induction fs with
  | nil => rfl
  | cons f fs ih =>
    obtain ⟨k, w⟩ := f
    by_cases hk : k = key
    · subst hk
      by_cases ho : k = other <;> simp [set, get?, ho]
    · by_cases ho : k = other
      · subst ho
        simp [set, get?, hk, Ne.symm hk]
      · simp [set, get?, hk, ho, ih]

theorem get?_eq_none {key : String} : fs.get? key = none ↔ ∀ f ∈ fs, f.1 ≠ key := by
  induction fs with
  | nil => simp [get?]
  | cons f fs ih =>
    obtain ⟨k, w⟩ := f
    by_cases hk : k = key
    · simp [get?, hk]
    · simp [get?, hk, ih]

theorem get?_overlay_of_forall_ne {patch : Fields} {key : String} (h : ∀ f ∈ patch, f.1 ≠ key)
    (fs : Fields) : (fs.overlay patch).get? key = fs.get? key := by
  induction patch generalizing fs with
  | nil => rfl
  | cons f patch ih =>
    have htail := ih (fun g hg => h g (List.mem_cons_of_mem f hg)) (fs.set f.1 f.2)
    rw [get?_set, if_neg (h f List.mem_cons_self)] at htail
    exact htail

theorem get?_update_self (key : String) (f : Option Json → Json) (fs : Fields) :
    (fs.update key f).get? key = some (f (fs.get? key)) := by
  induction fs with
  | nil => simp [update, get?]
  | cons g fs ih =>
    obtain ⟨k, v⟩ := g
    by_cases hk : k = key
    · subst hk
      simp [update, get?]
    · simp [update, get?, hk, ih]

theorem get?_update_of_ne {key other : String} (h : key ≠ other)
    (f : Option Json → Json) (fs : Fields) : (fs.update key f).get? other = fs.get? other := by
  induction fs with
  | nil => simp [update, get?, h]
  | cons g fs ih =>
    obtain ⟨k, v⟩ := g
    by_cases hk : k = key
    · subst hk
      simp [update, get?, h]
    · by_cases ho : k = other
      · subst ho
        simp [update, get?, hk]
      · simp [update, get?, hk, ho, ih]

theorem update_update (fs : Fields) (key : String) (f g : Option Json → Json) :
    (fs.update key f).update key g = fs.update key fun old => g (some (f old)) := by
  induction fs with
  | nil => simp [update]
  | cons h fs ih =>
    obtain ⟨k, v⟩ := h
    by_cases hk : k = key
    · simp [update, hk]
    · simp [update, hk, ih]

theorem forall_set {P : Json → Prop} (h : ∀ f ∈ fs, P f.2) (key : String) {v : Json} (hv : P v) :
    ∀ f ∈ fs.set key v, P f.2 := by
  induction fs with
  | nil => simpa [set] using hv
  | cons f fs ih =>
    obtain ⟨k, w⟩ := f
    rw [List.forall_mem_cons] at h
    rw [set]
    split
    · exact List.forall_mem_cons.mpr ⟨hv, h.2⟩
    · exact List.forall_mem_cons.mpr ⟨h.1, ih h.2⟩

theorem forall_overlay {P : Json → Prop} (h : ∀ f ∈ fs, P f.2) {patch : Fields}
    (hpatch : ∀ f ∈ patch, P f.2) : ∀ f ∈ fs.overlay patch, P f.2 := by
  induction patch generalizing fs with
  | nil => exact h
  | cons f patch ih =>
    rw [List.forall_mem_cons] at hpatch
    exact ih (forall_set h f.1 hpatch.1) hpatch.2

theorem has_iff {key : String} : fs.has key ↔ key ∈ fs.keys := by
  rw [has, Option.isSome_iff_ne_none, ne_eq, get?_eq_none]
  simp [keys]

theorem mem_keys {f : String × Json} (hf : f ∈ fs) : f.1 ∈ fs.keys := List.mem_map_of_mem hf

theorem keys_cons (f : String × Json) (fs : Fields) :
    Fields.keys (f :: fs) = f.1 :: fs.keys := rfl

theorem keys_filter (p : String → Bool) (fs : Fields) :
    Fields.keys (fs.filter fun f => p f.1) = fs.keys.filter p := by
  rw [keys, keys, List.filter_map]
  rfl

theorem keys_set (fs : Fields) (key : String) (v : Json) :
    (fs.set key v).keys = if key ∈ fs.keys then fs.keys else fs.keys ++ [key] := by
  induction fs with
  | nil => rfl
  | cons f fs ih =>
    obtain ⟨k, w⟩ := f
    by_cases hk : k = key
    · subst hk
      simp [set, keys_cons]
    · rw [set, if_neg hk, keys_cons, keys_cons, ih]
      by_cases hmem : key ∈ Fields.keys fs <;> simp [hmem, Ne.symm hk]

theorem nodup_keys_set (h : fs.keys.Nodup) (key : String) (v : Json) :
    (fs.set key v).keys.Nodup := by
  rw [keys_set]
  split
  · exact h
  · rename_i hkey
    exact List.nodup_append.mpr ⟨h, List.pairwise_singleton _ _, fun k hk k' hk' heq =>
      hkey (List.mem_singleton.mp hk' ▸ heq ▸ hk)⟩

theorem nodup_keys_overlay (h : fs.keys.Nodup) (patch : Fields) : (fs.overlay patch).keys.Nodup := by
  induction patch generalizing fs with
  | nil => exact h
  | cons f patch ih => exact ih (nodup_keys_set h f.1 f.2)

theorem set_of_not_mem {key : String} (h : key ∉ fs.keys) (v : Json) :
    fs.set key v = fs ++ [(key, v)] := by
  induction fs with
  | nil => rfl
  | cons f fs ih =>
    obtain ⟨k, w⟩ := f
    rw [keys_cons, List.mem_cons, not_or] at h
    rw [set, if_neg (Ne.symm h.1), ih h.2]
    rfl

theorem filter_set_of_not {p : String → Bool} {key : String} (h : p key = false) (fs : Fields)
    (v : Json) : ((fs.set key v).filter fun f => p f.1) = fs.filter fun f => p f.1 := by
  induction fs with
  | nil => simp [set, h]
  | cons f fs ih =>
    obtain ⟨k, w⟩ := f
    by_cases hk : k = key
    · subst hk
      simp [set, h]
    · simp only [set, hk, if_false, List.filter_cons, ih]

theorem mem_set_iff_of_ne {f : String × Json} {key : String} (h : f.1 ≠ key) (fs : Fields)
    (v : Json) : f ∈ fs.set key v ↔ f ∈ fs := by
  have hother : decide (key ≠ key) = false := by simp
  have hfilter := congrArg (f ∈ ·) (filter_set_of_not (p := fun k => k ≠ key) hother fs v)
  simpa [h] using hfilter

theorem overlay_eq_append {patch : Fields} (hpatch : patch.keys.Nodup)
    (h : ∀ key ∈ patch.keys, key ∉ fs.keys) : fs.overlay patch = fs ++ patch := by
  induction patch generalizing fs with
  | nil => exact (List.append_nil fs).symm
  | cons f patch ih =>
    obtain ⟨k, v⟩ := f
    rw [keys_cons, List.nodup_cons] at hpatch
    rw [keys_cons, List.forall_mem_cons] at h
    have hset := set_of_not_mem h.1 v
    have hrest : ∀ key ∈ Fields.keys patch, key ∉ Fields.keys (fs ++ [(k, v)]) := by
      intro key hkey
      simp only [keys, List.map_append, List.mem_append, List.map_cons, List.map_nil,
        List.mem_singleton, not_or]
      exact ⟨h.2 key hkey, fun heq => hpatch.1 (heq ▸ hkey)⟩
    show (fs.set k v).overlay patch = _
    rw [hset, ih hpatch.2 hrest, List.append_assoc, List.singleton_append]

theorem get?_overlay_of_mem {patch : Fields} (hpatch : patch.keys.Nodup) {f : String × Json}
    (hf : f ∈ patch) (fs : Fields) : (fs.overlay patch).get? f.1 = some f.2 := by
  induction patch generalizing fs with
  | nil => cases hf
  | cons g patch ih =>
    rw [keys_cons, List.nodup_cons] at hpatch
    show ((fs.set g.1 g.2).overlay patch).get? f.1 = _
    rcases List.mem_cons.mp hf with rfl | hf
    · have hne : ∀ g ∈ patch, g.1 ≠ f.1 := fun g hg heq => hpatch.1 (heq ▸ mem_keys hg)
      rw [get?_overlay_of_forall_ne hne, get?_set, if_pos rfl]
    · exact ih hpatch.2 hf _

theorem set_set (fs : Fields) (key : String) (v w : Json) :
    (fs.set key v).set key w = fs.set key w := by
  induction fs with
  | nil => simp [set]
  | cons f fs ih =>
    obtain ⟨k, u⟩ := f
    by_cases hk : k = key
    · simp [set, hk]
    · simp [set, hk, ih]

theorem set_comm {key other : String} (hkey : key ∈ fs.keys) (hne : other ≠ key) (v w : Json) :
    (fs.set other w).set key v = (fs.set key v).set other w := by
  induction fs with
  | nil => cases hkey
  | cons f fs ih =>
    obtain ⟨k, u⟩ := f
    rw [keys_cons, List.mem_cons] at hkey
    by_cases hk : k = key
    · subst hk
      simp [set, Ne.symm hne]
    · by_cases ho : k = other
      · subst ho
        simp [set, hk]
      · have hmem : key ∈ Fields.keys fs := hkey.resolve_left (Ne.symm hk)
        simp [set, hk, ho, ih hmem]

theorem overlay_append (fs patch patch' : Fields) :
    fs.overlay (patch ++ patch') = (fs.overlay patch).overlay patch' := List.foldl_append

theorem set_overlay {key : String} {patch : Fields} (hkey : key ∈ fs.keys)
    (hpatch : key ∉ patch.keys) (v : Json) :
    (fs.overlay patch).set key v = (fs.set key v).overlay patch := by
  induction patch generalizing fs with
  | nil => rfl
  | cons f patch ih =>
    rw [keys_cons, List.mem_cons, not_or] at hpatch
    have hmem : key ∈ (fs.set f.1 f.2).keys := by
      rw [keys_set]
      split
      · exact hkey
      · exact List.mem_append_left _ hkey
    show ((fs.set f.1 f.2).overlay patch).set key v = ((fs.set key v).set f.1 f.2).overlay patch
    rw [ih hmem hpatch.2, set_comm hkey (Ne.symm hpatch.1)]

theorem overlay_set {patch : Fields} (hpatch : patch.keys.Nodup) (fs : Fields) (key : String)
    (v : Json) : fs.overlay (patch.set key v) = (fs.overlay patch).set key v := by
  induction patch generalizing fs with
  | nil => rfl
  | cons f patch ih =>
    obtain ⟨k, w⟩ := f
    rw [keys_cons, List.nodup_cons] at hpatch
    by_cases hk : k = key
    · subst hk
      have hmem : k ∈ (fs.set k w).keys := by
        rw [← has_iff, has, get?_set, if_pos rfl]
        rfl
      rw [set, if_pos rfl]
      show (fs.set k v).overlay patch = ((fs.set k w).overlay patch).set k v
      rw [set_overlay hmem hpatch.1, set_set]
    · rw [set, if_neg hk]
      exact ih hpatch.2 (fs.set k w)

theorem overlay_overlay {patch : Fields} (hpatch : patch.keys.Nodup) (fs patch' : Fields) :
    fs.overlay (patch.overlay patch') = (fs.overlay patch).overlay patch' := by
  induction patch' generalizing patch with
  | nil => rfl
  | cons f patch' ih =>
    show fs.overlay ((patch.set f.1 f.2).overlay patch') =
      ((fs.overlay patch).set f.1 f.2).overlay patch'
    rw [ih (nodup_keys_set hpatch f.1 f.2), overlay_set hpatch]

theorem keys_overlay (fs patch : Fields) :
    (fs.overlay patch).keys = fs.keys ++ (patch.keys.filter (· ∉ fs.keys)).eraseDups := by
  induction patch generalizing fs with
  | nil => exact (List.append_nil _).symm
  | cons f patch ih =>
    show ((fs.set f.1 f.2).overlay patch).keys = _
    rw [ih, keys_set, keys_cons]
    by_cases hmem : f.1 ∈ fs.keys
    · rw [if_pos hmem, List.filter_cons_of_neg (by simpa using hmem)]
    · rw [if_neg hmem, List.filter_cons_of_pos (by simpa using hmem), List.eraseDups_cons,
        List.filter_filter, List.append_assoc, List.singleton_append]
      refine congrArg (fun ks => fs.keys ++ f.1 :: List.eraseDups ks)
        (List.filter_congr fun key _ => ?_)
      by_cases hkey : key ∈ fs.keys <;> by_cases heq : key = f.1 <;> simp [hkey, heq]

theorem mem_keys_overlay {patch : Fields} {key : String} :
    key ∈ (fs.overlay patch).keys ↔ key ∈ fs.keys ∨ key ∈ patch.keys := by
  rw [keys_overlay, List.mem_append, List.mem_eraseDups, List.mem_filter]
  by_cases hkey : key ∈ fs.keys <;> simp [hkey]

theorem getElem?_set_of_ne {i : Nat} {f : String × Json} (hf : fs[i]? = some f) {key : String}
    (hne : f.1 ≠ key) (v : Json) : (fs.set key v)[i]? = some f := by
  induction fs generalizing i with
  | nil => cases hf
  | cons g fs ih =>
    obtain ⟨k, w⟩ := g
    rw [set]
    cases i with
    | zero =>
      cases hf
      rw [if_neg hne]
      rfl
    | succ i =>
      rw [List.getElem?_cons_succ] at hf
      split
      · exact hf
      · exact ih hf

theorem getElem?_overlay_of_not_mem {patch : Fields} {i : Nat} {f : String × Json}
    (hf : fs[i]? = some f) (hpatch : f.1 ∉ patch.keys) : (fs.overlay patch)[i]? = some f := by
  induction patch generalizing fs with
  | nil => exact hf
  | cons g patch ih =>
    rw [keys_cons, List.mem_cons, not_or] at hpatch
    exact ih (getElem?_set_of_ne hf hpatch.1 g.2) hpatch.2

theorem mem_of_get? {key : String} {v : Json} (h : fs.get? key = some v) : (key, v) ∈ fs := by
  induction fs with
  | nil => cases h
  | cons f fs ih =>
    obtain ⟨k, w⟩ := f
    by_cases hk : k = key
    · rw [get?, if_pos hk, Option.some.injEq] at h
      rw [hk, h]
      exact List.mem_cons_self
    · rw [get?, if_neg hk] at h
      exact List.mem_cons_of_mem _ (ih h)

theorem get?_of_mem (h : fs.keys.Nodup) {f : String × Json} (hf : f ∈ fs) :
    fs.get? f.1 = some f.2 := by
  induction fs with
  | nil => cases hf
  | cons g fs ih =>
    rw [keys_cons, List.nodup_cons] at h
    rcases List.mem_cons.mp hf with rfl | hf
    · exact if_pos rfl
    · have hne : g.1 ≠ f.1 := fun heq => h.1 (heq ▸ mem_keys hf)
      exact (if_neg hne).trans (ih h.2 hf)

theorem get?_filter (p : String → Bool) (fs : Fields) (key : String) :
    Fields.get? (fs.filter fun f => p f.1) key = if p key then fs.get? key else none := by
  induction fs with
  | nil => simp [get?]
  | cons f fs ih =>
    obtain ⟨k, v⟩ := f
    by_cases hk : k = key
    · subst hk
      cases hp : p k <;> simp_all [get?]
    · cases hp : p k <;> simp_all [get?]

theorem get?_overlay {patch : Fields} (hpatch : patch.keys.Nodup) (fs : Fields) (key : String) :
    (fs.overlay patch).get? key = (patch.get? key).or (fs.get? key) := by
  by_cases hkey : key ∈ patch.keys
  · obtain ⟨f, hf, rfl⟩ := List.mem_map.mp hkey
    rw [get?_overlay_of_mem hpatch hf, get?_of_mem hpatch hf, Option.some_or]
  · have hne : ∀ f ∈ patch, f.1 ≠ key := fun f hf heq => hkey (heq ▸ mem_keys hf)
    rw [get?_overlay_of_forall_ne hne, get?_eq_none.mpr hne, Option.none_or]

theorem set_of_get? {key : String} {v : Json} (h : fs.get? key = some v) : fs.set key v = fs := by
  induction fs with
  | nil => cases h
  | cons f fs ih =>
    obtain ⟨k, w⟩ := f
    by_cases hk : k = key
    · rw [get?, if_pos hk, Option.some.injEq] at h
      rw [set, if_pos hk, h]
    · rw [get?, if_neg hk] at h
      rw [set, if_neg hk, ih h]

theorem overlay_of_get? {patch : Fields} (h : ∀ f ∈ patch, fs.get? f.1 = some f.2) :
    fs.overlay patch = fs := by
  induction patch with
  | nil => rfl
  | cons f patch ih =>
    obtain ⟨hf, hpatch⟩ := List.forall_mem_cons.mp h
    show (fs.set f.1 f.2).overlay patch = fs
    rw [set_of_get? hf, ih hpatch]

theorem overlay_overlay_self {patch : Fields} (hpatch : patch.keys.Nodup) (fs : Fields) :
    (fs.overlay patch).overlay patch = fs.overlay patch :=
  overlay_of_get? fun _ hf => get?_overlay_of_mem hpatch hf fs

/-- What fields are after the named ones have been written. These are there, in the places that they
had or else at the end; all others are as they were and where they were. -/
structure Rewrites (names : List String) (fs fs' : Fields) : Prop where
  keys : fs'.keys = fs.keys ++ names.filter (· ∉ fs.keys)
  kept : ∀ (i : Nat) (f : String × Json), fs[i]? = some f → f.1 ∉ names → fs'[i]? = some f

theorem eraseDups_of_nodup {names : List String} (h : names.Nodup) : names.eraseDups = names := by
  induction names with
  | nil => rfl
  | cons name names ih =>
    rw [List.nodup_cons] at h
    have hothers : (names.filter fun other => !other == name) = names := by
      refine List.filter_eq_self.mpr fun other hother => ?_
      have hne : other ≠ name := fun heq => h.1 (heq ▸ hother)
      simpa using hne
    rw [List.eraseDups_cons, hothers, ih h.2]

theorem rewrites_overlay {patch : Fields} (hpatch : patch.keys.Nodup) (fs : Fields) :
    Rewrites patch.keys fs (fs.overlay patch) where
  keys := by rw [keys_overlay, eraseDups_of_nodup (hpatch.filter _)]
  kept _ _ := getElem?_overlay_of_not_mem

theorem rewrites_set (fs : Fields) (key : String) (v : Json) :
    Rewrites [key] fs (fs.set key v) := by
  have hpatch : (Fields.keys [(key, v)]).Nodup := List.pairwise_singleton _ _
  exact rewrites_overlay hpatch fs

end Clientele.Fields
