import Clientele.Identifier

/-!
Hexadecimal digits have the value that they were written for, and identifiers are read back from
their text.
-/
set_option autoImplicit false

namespace Clientele.Identifier

theorem hexValue?_digit (n : Nat) : hexValue? (digit n) = some (n % 16) := by
  have h : ∀ m < 16, hexValue? ((Nat.toDigits 16 m).headD '0') = some m := by decide
  exact h (n % 16) (Nat.mod_lt _ (by decide))

theorem length_digitsFrom (n places : Nat) : (digitsFrom n places).length = places := by
  induction places with
  | zero => rfl
  | succ places ih => rw [digitsFrom, List.length_cons, ih]

theorem isSome_hexValue?_of_mem_digitsFrom {n places : Nat} {c : Char}
    (h : c ∈ digitsFrom n places) : (hexValue? c).isSome = true := by
  induction places with
  | zero => simp [digitsFrom] at h
  | succ places ih =>
    rw [digitsFrom, List.mem_cons] at h
    rcases h with rfl | h
    · rw [hexValue?_digit]
      rfl
    · exact ih h

theorem foldlM_digitsFrom (n places start : Nat) :
    (digitsFrom n places).foldlM (fun n c => (hexValue? c).map (16 * n + ·)) start =
      some (Nat.pow 16 places * start + n % Nat.pow 16 places) := by
  induction places generalizing start with
  | zero => simp [digitsFrom, Nat.mod_one]
  | succ places ih =>
    have hpow : Nat.pow 16 (places + 1) = Nat.pow 16 places * 16 := rfl
    have hn : n % Nat.pow 16 (places + 1) =
        n % Nat.pow 16 places + Nat.pow 16 places * (n / Nat.pow 16 places % 16) :=
      Nat.mod_mul
    have hsum : Nat.pow 16 places * (16 * start + n / Nat.pow 16 places % 16) +
        n % Nat.pow 16 places = Nat.pow 16 (places + 1) * start + n % Nat.pow 16 (places + 1) := by
      rw [hn, hpow, Nat.mul_add, ← Nat.mul_assoc]
      omega
    rw [digitsFrom, List.foldlM_cons, hexValue?_digit]
    exact (ih _).trans (congrArg some hsum)

theorem valueOf?_digitsFrom (n places : Nat) :
    valueOf? (digitsFrom n places) = some (n % Nat.pow 16 places) := by
  rw [valueOf?, foldlM_digitsFrom, Nat.mul_zero, Nat.zero_add]

theorem ungrouped?_grouped {ds : List Char} (h : ds.length = 32) :
    ungrouped? (grouped ds) = some ds := by
  have hlength : (grouped ds).length = 36 := by simp [grouped, h]
  have hhyphens : ([8, 13, 18, 23].all fun i => (grouped ds)[i]? == some '-') = true := by
    simp [grouped, List.getElem?_append, List.getElem?_cons, h]
  have hparts : (grouped ds).take 8 ++ ((grouped ds).drop 9).take 4 ++
      ((grouped ds).drop 14).take 4 ++ ((grouped ds).drop 19).take 4 ++ (grouped ds).drop 24 =
      ds.take 8 ++ ((ds.drop 8).take 4 ++ ((ds.drop 12).take 4 ++
        ((ds.drop 16).take 4 ++ ds.drop 20))) := by
    simp [grouped, List.drop_append, List.drop_take, h]
  have hdrop (n : Nat) : (ds.drop n).take 4 ++ ds.drop (n + 4) = ds.drop n := by
    rw [← List.drop_drop, List.take_append_drop]
  rw [ungrouped?, if_pos ⟨hlength, hhyphens⟩, hparts, hdrop 16, hdrop 12, hdrop 8,
    List.take_append_drop]

theorem ofText?_text (i : Identifier) : ofText? i.text = some i := by
  have hlength := length_digitsFrom i.bits.toNat 32
  have hdigits : ofDigits? (digitsFrom i.bits.toNat 32) = some i := by
    have hbits : i.bits.toNat % Nat.pow 16 32 = i.bits.toNat := Nat.mod_eq_of_lt i.bits.isLt
    rw [ofDigits?, if_pos hlength, valueOf?_digitsFrom, hbits, Option.map_some,
      BitVec.ofNat_toNat, BitVec.setWidth_eq]
  have hchars : i.chars.length = 36 := by
    simp [chars, grouped, hlength]
  have hunwrapped : unwrapped i.chars = i.chars := by
    simp [unwrapped, hchars]
  rw [ofText?, text, String.toList_ofList, ofChars?, if_neg (by omega), hunwrapped, hyphenated?,
    chars, ungrouped?_grouped hlength, Option.bind_some, hdigits]

theorem text_injective {i j : Identifier} (h : i.text = j.text) : i = j :=
  Option.some.inj ((ofText?_text i).symm.trans (h ▸ ofText?_text j))

theorem ofJson?_toJson (i : Identifier) : ofJson? i.toJson = some i := by
  rw [ofJson?, toJson, Json.text?, Option.bind_some, ofText?_text]

end Clientele.Identifier
