import Mathlib.Data.List.TakeWhile
import Clientele.Files.Route
import Clientele.Proofs.Text.Lines

/-!
The parts of a route have no slash in them. Where a name follows a folder, the route has the parts
of the folder, but for an empty one at their end, and then the name.
-/
set_option autoImplicit false

namespace Clientele.Route

def IsPart (name : String) : Prop := '/' ∉ name.toList

variable {r folder : Route} {name : String}

theorem isPart_of_mem_parts (h : name ∈ r.parts) : IsPart name := by
  obtain ⟨part, hpart, rfl⟩ := List.mem_map.mp h
  rw [IsPart, String.toList_ofList]
  exact Text.not_mem_of_mem_split hpart

theorem fromRoot_of_isPart (h : IsPart name) : (Route.mk name).fromRoot = false := by
  rw [fromRoot, decide_eq_false_iff_not]
  exact fun hhead => h (List.mem_of_mem_head? hhead)

theorem text_join (h : IsPart name) :
    (folder.text = "" ∧ (folder.join name).text = name) ∨
    (∃ cs, folder.text.toList = cs ++ ['/'] ∧
      (folder.join name).text = folder.text ++ name) ∨
    (folder.join name).text = folder.text ++ "/" ++ name := by
  simp only [join, fromRoot_of_isPart h, Bool.false_eq_true, if_false]
  split
  · rename_i hend
    rcases Bool.or_eq_true_iff.mp hend with hempty | hslash
    · exact .inl ⟨of_decide_eq_true hempty, by simp [of_decide_eq_true hempty]⟩
    · exact .inr (.inl ⟨_, (List.getLast?_eq_some_iff.mp (of_decide_eq_true hslash)).choose_spec, rfl⟩)
  · exact .inr (.inr rfl)

theorem parts_join (h : IsPart name) :
    ∃ ps, (folder.join name).parts = ps ++ [name] ∧ (folder.parts = ps ∨ folder.parts = ps ++ [""]) := by
  have hname : Text.split '/' name.toList = [name.toList] := Text.split_of_not_mem h
  have hslash : ("/" : String).toList = ['/'] := rfl
  simp only [parts, Text.splitText]
  rcases @text_join folder name h with ⟨hempty, htext⟩ | ⟨cs, hcs, htext⟩ | htext
  · exact ⟨[], by simp [htext, hname], .inr (by simp [hempty, Text.split])⟩
  · refine ⟨(Text.split '/' cs).map String.ofList, ?_, .inr ?_⟩
    · rw [htext, String.toList_append, hcs, List.append_assoc, List.singleton_append,
        Text.split_append_sep, hname]
      simp
    · rw [hcs, Text.split_append_sep]
      simp [Text.split]
  · refine ⟨_, ?_, .inl rfl⟩
    rw [htext, String.toList_append, String.toList_append, List.append_assoc, hslash,
      List.singleton_append, Text.split_append_sep, hname]
    simp

theorem fromRoot_join (h : IsPart name) (hfolder : folder.text ≠ "") :
    (folder.join name).fromRoot = folder.fromRoot := by
  obtain ⟨c, cs, htoList⟩ :=
    List.exists_cons_of_ne_nil (show folder.text.toList ≠ [] by simpa using hfolder)
  rw [fromRoot, fromRoot]
  rcases @text_join folder name h with ⟨hempty, -⟩ | ⟨cs, -, htext⟩ | htext
  · exact absurd hempty hfolder
  · simp [htext, htoList]
  · simp [htext, htoList]

theorem parts_eq_folderParts (r : Route) :
    ∃ n, r.parts = r.folderParts ++ List.replicate n "" := by
  let blanks := r.parts.reverse.takeWhile (· == "")
  have hblanks : blanks.reverse = List.replicate blanks.length "" :=
    List.eq_replicate_iff.mpr ⟨List.length_reverse, fun p hp => by
      simpa using List.mem_takeWhile_imp (List.mem_reverse.mp hp)⟩
  refine ⟨blanks.length, ?_⟩
  calc r.parts = (blanks ++ r.parts.reverse.dropWhile (· == "")).reverse := by
        rw [List.takeWhile_append_dropWhile, List.reverse_reverse]
    _ = r.folderParts ++ blanks.reverse := List.reverse_append
    _ = r.folderParts ++ List.replicate blanks.length "" := by rw [hblanks]

end Clientele.Route
