import Clientele.Proofs.Json.Assembly

/-!
The indented text of a value is read as the value, as the compact one is: line breaks and
indentation are passed over.
-/
set_option autoImplicit false

namespace Clientele.Json

theorem isBlank_of_mem_newline {level : Nat} : ∀ c ∈ newline level, isBlank c = true := by
  intro c hc
  rcases List.mem_cons.mp hc with rfl | hc
  · rfl
  · rw [(List.mem_replicate.mp hc).2]
    rfl

theorem Reads.block {opening closing : Char} {o c : Token} (level : Nat)
    {parts : List (List Char)} {tokens : List (List Token)}
    (ho : begin? opening = some ([o], .none)) (hc : begin? closing = some ([c], .none))
    (h : List.Forall₂ Reads parts tokens) :
    Reads (block opening closing level parts) (o :: (separatedTokens tokens ++ [c])) := by
  have hclose : Reads (newline level ++ [closing]) [c] :=
    (Reads.begin hc reads_nil).blanks isBlank_of_mem_newline
  have hparts := Reads.separated (@isBlank_of_mem_newline (level + 1)) h hclose ⟨rfl, rfl⟩
    (by simp [newline])
  cases h with
  | nil => exact Reads.begin ho (Reads.begin hc reads_nil)
  | cons hp hps =>
    have hall := Reads.begin ho (hparts.blanks (@isBlank_of_mem_newline (level + 1)))
    simpa [Json.block] using hall

mutual

theorem reads_indentedChars :
    ∀ (level : Nat) (v : Json), v.AllNumbers NumberReads → Reads (v.indentedChars level) v.tokensOf
  | _, .null, h => reads_compactChars .null h
  | _, .bool b, h => reads_compactChars (.bool b) h
  | _, .num n, h => reads_compactChars (.num n) h
  | _, .str s, h => reads_compactChars (.str s) h
  | level, .arr xs, h =>
    Reads.block level rfl rfl (reads_indentedItems (level + 1) xs h)
  | level, .obj fs, h =>
    Reads.block level rfl rfl (reads_indentedFields (level + 1) fs h)

theorem reads_indentedItems :
    ∀ (level : Nat) (xs : List Json), AllItemNumbers NumberReads xs →
      List.Forall₂ Reads (indentedItems level xs) (itemTokens xs)
  | _, [], _ => .nil
  | level, x :: xs, h => .cons (reads_indentedChars level x h.1) (reads_indentedItems level xs h.2)

theorem reads_indentedFields :
    ∀ (level : Nat) (fs : List (String × Json)), AllFieldNumbers NumberReads fs →
      List.Forall₂ Reads (indentedFields level fs) (fieldTokens fs)
  | _, [], _ => .nil
  | level, (k, v) :: fs, h => by
    have hcolon : begin? ':' = some ([.colon], .none) := rfl
    have hblank : begin? ' ' = some ([], .none) := rfl
    exact .cons ((reads_quoted k).append
      (Reads.begin hcolon (Reads.begin hblank (reads_indentedChars level v h.1)))
      ⟨rfl, rfl⟩ (by simp)) (reads_indentedFields level fs h.2)

end

theorem parseRaw?_indented_eq {v : Json} (hnumbers : v.AllNumbers NumberReads) :
    parseRaw? v.indented = ofTokens? (fun _ => true) v.tokensOf := by
  have hv := reads_indentedChars 0 v hnumbers [] [] trivial
  have htokens : tokens? (v.indentedChars 0) = some v.tokensOf := by
    simpa [tokens?, Begun.tokens?, Begun.finish?] using hv
  rw [parseRaw?, indented, String.toList_ofList, htokens, Option.bind_some]

theorem parseRaw?_indented {v : Json} (hdepth : v.depth ≤ maxDepth)
    (hnumbers : v.AllNumbers NumberReads) : parseRaw? v.indented = some v := by
  rw [parseRaw?_indented_eq hnumbers, ofTokens?_tokensOf hdepth]

end Clientele.Json
