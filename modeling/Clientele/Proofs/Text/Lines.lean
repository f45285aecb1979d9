import Clientele.Text.Basic
import Mathlib.Data.List.TakeWhile

/-!
Lines that were written one after another are read back as they were.
-/
set_option autoImplicit false

namespace Clientele.Text

/-- A line that a line feed may end: it has none in it, and no carriage return at its end. -/
def IsLine (cs : List Char) : Prop := '\n' ∉ cs ∧ cs.getLast? ≠ some '\r'

theorem split_ne_nil (sep : Char) (cs : List Char) : split sep cs ≠ [] := by
  cases cs with
  | nil => simp [split]
  | cons c cs =>
    rw [split]
    split
    · simp
    · split <;> simp

theorem split_append_sep (sep : Char) (cs rest : List Char) :
    split sep (cs ++ sep :: rest) = split sep cs ++ split sep rest := by
  induction cs with
  | nil => simp [split]
  | cons c cs ih =>
    rw [List.cons_append, split, split, ih]
    split
    · rfl
    · obtain ⟨part, parts, hparts⟩ := List.exists_cons_of_ne_nil (split_ne_nil sep cs)
      simp [hparts]

theorem split_of_not_mem {sep : Char} {cs : List Char} (h : sep ∉ cs) : split sep cs = [cs] := by
  induction cs with
  | nil => rfl
  | cons c cs ih =>
    rw [List.mem_cons, not_or] at h
    rw [split, if_neg (Ne.symm h.1), ih h.2]

theorem not_mem_of_mem_split {sep : Char} {cs part : List Char} (h : part ∈ split sep cs) :
    sep ∉ part := by
  induction cs generalizing part with
  | nil => simp_all [split]
  | cons c cs ih =>
    rw [split] at h
    split at h
    · rcases List.mem_cons.mp h with rfl | h
      · simp
      · exact ih h
    · rename_i hc
      split at h
      · rw [List.mem_singleton.mp h]
        simpa using Ne.symm hc
      · rename_i first parts hparts
        rcases List.mem_cons.mp h with rfl | h
        · have hfirst : sep ∉ first := ih (by simp [hparts])
          simpa [Ne.symm hc] using hfirst
        · exact ih (by simp [hparts, h])

theorem split_append {sep : Char} {cs : List Char} (h : sep ∉ cs) (rest : List Char) :
    split sep (cs ++ sep :: rest) = cs :: split sep rest := by
  rw [split_append_sep, split_of_not_mem h, List.singleton_append]

theorem split_flatMap {sep : Char} {parts : List (List Char)} (h : ∀ p ∈ parts, sep ∉ p) :
    split sep (parts.flatMap (· ++ [sep])) = parts ++ [[]] := by
  induction parts with
  | nil => rfl
  | cons p ps ih =>
    rw [List.flatMap_cons, List.append_assoc, List.singleton_append, split_append (h p (by simp)),
      ih fun q hq => h q (by simp [hq])]
    rfl

theorem join_cons (sep : Char) (part : List Char) {parts : List (List Char)} (h : parts ≠ []) :
    join sep (part :: parts) = part ++ sep :: join sep parts := by
  cases parts with
  | nil => contradiction
  | cons => rfl

theorem join_concat (sep : Char) {parts : List (List Char)} (h : parts ≠ []) (part : List Char) :
    join sep (parts ++ [part]) = join sep parts ++ sep :: part := by
  induction parts with
  | nil => contradiction
  | cons first parts ih =>
    cases parts with
    | nil => rfl
    | cons second parts =>
      have hparts : second :: parts ≠ [] := List.cons_ne_nil _ _
      rw [List.cons_append, join_cons sep first (by simp), ih hparts, join_cons sep first hparts,
        List.append_assoc, List.cons_append]

theorem withoutReturn_of_isLine {cs : List Char} (h : IsLine cs) : withoutReturn cs = cs :=
  if_neg h.2

theorem lines_flatMap {ls : List (List Char)} (h : ∀ l ∈ ls, IsLine l) :
    lines (ls.flatMap (· ++ ['\n'])) = ls := by
  have hsplit := split_flatMap fun l hl => (h l hl).1
  have hlast : (ls ++ [[]]).getLastD [] = ([] : List Char) := by simp
  have hmap : ls.map withoutReturn = ls := by
    rw [List.map_congr_left fun l hl => withoutReturn_of_isLine (h l hl), List.map_id']
  unfold lines
  simp only [hsplit, hlast, List.dropLast_concat, hmap]
  simp

theorem isEmpty_trim_cons {c : Char} (hc : isBlank c = false) (cs : List Char) :
    (trim (c :: cs)).isEmpty = false := by
  have hleft : trimLeft (c :: cs) = c :: cs := List.dropWhile_cons_of_neg (by simp [hc])
  rw [trim, hleft, List.isEmpty_reverse, trimLeft, List.isEmpty_eq_false_iff, ne_eq,
    List.dropWhile_eq_nil_iff]
  intro hall
  have hblank := hall c (List.mem_reverse.mpr List.mem_cons_self)
  rw [hc] at hblank
  cases hblank

def IsComplete (cs : List Char) : Prop := cs = [] ∨ ∃ ds, cs = ds ++ ['\n']

theorem IsComplete.append {cs ds : List Char} (hds : ds ≠ []) (h : IsComplete ds) :
    IsComplete (cs ++ ds) := by
  rcases h with hnil | ⟨es, rfl⟩
  · exact absurd hnil hds
  · exact .inr ⟨cs ++ es, (List.append_assoc _ _ _).symm⟩

theorem lines_append {cs : List Char} (h : IsComplete cs) (rest : List Char) :
    lines (cs ++ rest) = lines cs ++ lines rest := by
  rcases h with rfl | ⟨ds, rfl⟩
  · rfl
  obtain ⟨parts, last, hparts⟩ : ∃ parts last, split '\n' rest = parts ++ [last] :=
    by simpa using (List.eq_nil_or_concat _).resolve_left (split_ne_nil '\n' rest)
  have hsplit : split '\n' (ds ++ ['\n']) = split '\n' ds ++ [[]] := split_append_sep '\n' ds []
  simp only [lines, List.append_assoc, List.singleton_append, hsplit, split_append_sep, hparts]
  rw [← List.append_assoc]
  simp

end Clientele.Text
