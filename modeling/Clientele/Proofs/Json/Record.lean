import Clientele.Json.Record
import Clientele.Proofs.Json.Fields

/-!
What the slots of a record hold after fields of the object have been written or taken out. A slot
depends on the fields of its own name only.
-/
set_option autoImplicit false

namespace Clientele

namespace Fields

variable {fs : Fields} {key other : String}

theorem length_filter_set (fs : Fields) (key : String) (v : Json) :
    ((fs.set key v).filter (·.1 == key)).length = max 1 (fs.filter (·.1 == key)).length := by
  induction fs with
  | nil => simp [set]
  | cons f fs ih =>
    obtain ⟨k, w⟩ := f
    by_cases hk : k = key
    · subst hk
      simp only [set, if_true, List.filter_cons, BEq.rfl, List.length_cons]
      omega
    · simpa [set, hk] using ih

theorem get?_eq_head? (fs : Fields) (key : String) :
    fs.get? key = (fs.filter (·.1 == key)).head?.map (·.2) := by
  induction fs with
  | nil => rfl
  | cons f fs ih =>
    obtain ⟨k, w⟩ := f
    by_cases hk : k = key
    · simp [get?, hk]
    · simp [get?, hk, ih]

theorem takeOut_of_forall_ne (h : ∀ f ∈ fs, f.1 ≠ key) : fs.takeOut key = fs := by
  have hnone : fs.findIdx? (·.1 == key) = none := by
    rw [List.findIdx?_eq_none_iff]
    intro f hf
    simpa using h f hf
  rw [takeOut, hnone]

theorem findIdx?_split {before : Fields} (h : ∀ f ∈ before, f.1 ≠ key) (v : Json) (after : Fields) :
    (before ++ (key, v) :: after).findIdx? (·.1 == key) = some before.length := by
  have hnone : before.findIdx? (·.1 == key) = none := by
    rw [List.findIdx?_eq_none_iff]
    intro f hf
    simpa using h f hf
  rw [List.findIdx?_append, hnone, List.findIdx?_cons]
  simp

theorem takeOut_last {before : Fields} (h : ∀ f ∈ before, f.1 ≠ key) (v : Json) :
    (before ++ [(key, v)]).takeOut key = before := by
  rw [takeOut, findIdx?_split h]
  simp

theorem takeOut_gap {before : Fields} (h : ∀ f ∈ before, f.1 ≠ key) (v : Json) (after : Fields)
    (last : String × Json) :
    (before ++ (key, v) :: (after ++ [last])).takeOut key = before ++ last :: after := by
  have hlast : (before ++ (key, v) :: (after ++ [last])).dropLast = before ++ (key, v) :: after := by
    rw [← List.cons_append, ← List.append_assoc, List.dropLast_concat]
  have hend : (before ++ (key, v) :: (after ++ [last])).getLast? = some last := by
    rw [← List.cons_append, ← List.append_assoc, List.getLast?_concat]
  rw [takeOut, findIdx?_split h, hend]
  simp [hlast]

theorem filter_takeOut_perm (h : key ≠ other) (fs : Fields) :
    ((fs.takeOut key).filter (·.1 == other)).Perm (fs.filter (·.1 == other)) := by
  cases hfind : fs.find? (·.1 == key) with
  | none =>
    have hne : ∀ f ∈ fs, f.1 ≠ key := by
      intro f hf
      simpa using List.find?_eq_none.mp hfind f hf
    rw [takeOut_of_forall_ne hne]
  | some f =>
    obtain ⟨hkey, before, after, rfl, hbefore⟩ := List.find?_eq_some_iff_append.mp hfind
    obtain ⟨k, v⟩ := f
    obtain rfl : k = key := by simpa using hkey
    have hne : ∀ g ∈ before, g.1 ≠ k := by
      intro g hg
      simpa using hbefore g hg
    rcases List.eq_nil_or_concat after with rfl | ⟨rest, last, rfl⟩
    · rw [takeOut_last hne]
      simp [List.filter_append, h]
    · rw [List.concat_eq_append, takeOut_gap hne]
      simp only [List.filter_append, List.filter_cons, beq_eq_false_iff_ne.mpr h,
        Bool.false_eq_true, if_false, List.filter_nil]
      refine List.Perm.append_left _ ?_
      split
      · exact (List.perm_append_singleton last _).symm
      · rw [List.append_nil]

/-- What a slot holds that is filled from the fields of one name, unless there are several. -/
def slot? (fs : Fields) (key : String) : Option (Option Json) :=
  if (fs.filter (·.1 == key)).length ≤ 1 then some (fs.get? key) else none

theorem slot?_eq_some {slot : Option Json} :
    fs.slot? key = some slot ↔ (fs.filter (·.1 == key)).length ≤ 1 ∧ fs.get? key = slot := by
  rw [slot?]
  split <;> simp [*]

theorem slot?_eq_of_perm {gs : Fields}
    (h : (fs.filter (·.1 == key)).Perm (gs.filter (·.1 == key))) : fs.slot? key = gs.slot? key := by
  rw [slot?, slot?, h.length_eq]
  split
  · rename_i hlength
    have heq : fs.filter (·.1 == key) = gs.filter (·.1 == key) := by
      cases hgs : gs.filter (·.1 == key) with
      | nil => rw [hgs] at h; exact h.eq_nil
      | cons g rest =>
        rw [hgs, List.length_cons] at hlength
        obtain rfl : rest = [] := List.length_eq_zero_iff.mp (by omega)
        rw [hgs] at h
        exact h.eq_singleton
    rw [get?_eq_head?, get?_eq_head?, heq]
  · rfl

theorem slot?_takeOut_of_ne (h : key ≠ other) (fs : Fields) :
    (fs.takeOut key).slot? other = fs.slot? other :=
  slot?_eq_of_perm (filter_takeOut_perm h fs)

theorem slot?_set_of_ne (h : key ≠ other) (fs : Fields) (v : Json) :
    (fs.set key v).slot? other = fs.slot? other :=
  slot?_eq_of_perm (by rw [filter_set_of_not (p := (· == other)) (beq_eq_false_iff_ne.mpr h)])

theorem slot?_set_self (fs : Fields) (key : String) (v : Json) :
    (fs.set key v).slot? key = (fs.slot? key).map fun _ => some v := by
  rw [slot?, slot?, length_filter_set, get?_set, if_pos rfl]
  by_cases hone : (fs.filter (·.1 == key)).length ≤ 1
  · rw [if_pos hone, if_pos (by omega), Option.map_some]
  · rw [if_neg hone, if_neg (by omega), Option.map_none]

end Fields

theorem Json.slots?_obj_eq_some {names : List String} {fs : Fields} {slots : List (Option Json)} :
    Json.slots? names (.obj fs) = some slots ↔ names.map fs.slot? = slots.map some := by
  have hslots (h : ∀ n ∈ names, (fs.filter (·.1 == n)).length ≤ 1) :
      names.map fs.slot? = (names.map fs.get?).map some := by
    rw [List.map_map]
    exact List.map_congr_left fun n hn => Fields.slot?_eq_some.mpr ⟨h n hn, rfl⟩
  constructor
  · intro h
    rw [slots?] at h
    split at h
    · rename_i hall
      cases h
      exact hslots fun n hn => by simpa using List.all_eq_true.mp hall n hn
    · cases h
  · intro h
    have hall : ∀ n ∈ names, (fs.filter (·.1 == n)).length ≤ 1 := by
      intro n hn
      have hmem : fs.slot? n ∈ slots.map some := h ▸ List.mem_map_of_mem hn
      obtain ⟨slot, -, hslot⟩ := List.mem_map.mp hmem
      exact (Fields.slot?_eq_some.mp hslot.symm).1
    have hget : names.map fs.get? = slots := by
      rw [hslots hall] at h
      exact List.map_inj_right (fun _ _ => Option.some.inj) |>.mp h
    rw [slots?, if_pos (List.all_eq_true.mpr fun n hn => by simpa using hall n hn), hget]

end Clientele
