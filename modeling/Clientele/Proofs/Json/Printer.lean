import Clientele.Json.Printer
import Clientele.Json.Token

/-!
The compact text of a value has no control character, so it stands on one line.
-/
set_option autoImplicit false

namespace Clientele

namespace Number

open Json (isNumberChar)

theorem all_digitsOf (n : Nat) : (Decimal.digitsOf n).all isNumberChar = true := by
  refine List.all_eq_true.mpr fun c hc => ?_
  have hdigit : c.isDigit = true := Nat.isDigit_of_mem_toDigits (by decide) (by decide) hc
  simp [isNumberChar, hdigit]

theorem all_pointed {ds : List Char} (h : ds.all isNumberChar = true) (n : Int) :
    (Decimal.pointed ds n).all isNumberChar = true := by
  have hzeros (k : Nat) : (Decimal.zeros k).all isNumberChar = true :=
    List.all_eq_true.mpr fun c hc => by rw [(List.mem_replicate.mp hc).2]; rfl
  have hds := List.all_eq_true.mp h
  have htake (k : Nat) : (ds.take k).all isNumberChar = true :=
    List.all_eq_true.mpr fun c hc => hds c (List.mem_of_mem_take hc)
  have hdrop (k : Nat) : (ds.drop k).all isNumberChar = true :=
    List.all_eq_true.mpr fun c hc => hds c (List.mem_of_mem_drop hc)
  have hzero : isNumberChar '0' = true := rfl
  have hpoint : isNumberChar '.' = true := rfl
  unfold Decimal.pointed
  split
  · simp only [List.all_cons, List.all_append, hzero, hpoint, hzeros, h, Bool.and_true]
  · split
    · simp only [List.all_cons, List.all_append, List.all_nil, hzero, hpoint, hzeros, h,
        Bool.and_true]
    · simp only [List.all_cons, List.all_append, hpoint, htake, hdrop, Bool.and_true]

theorem all_scientific {ds : List Char} (h : ds.all isNumberChar = true) (e : Int) :
    (Decimal.scientific ds e).all isNumberChar = true := by
  have hsign : isNumberChar (if e < 0 then '-' else '+') = true := by split <;> rfl
  have hpoint : isNumberChar '.' = true := rfl
  have he : isNumberChar 'e' = true := rfl
  unfold Decimal.scientific
  simp only [List.all_append, List.all_cons, hsign, he, all_digitsOf, Bool.and_true]
  split
  · simpa [hpoint] using h
  · exact h

theorem all_floatText (x : Float) : (Decimal.floatText x).all isNumberChar = true := by
  have hbody (d : Decimal.Scaled) : d.text.all isNumberChar = true := by
    unfold Decimal.Scaled.text
    simp only
    split
    · exact all_pointed (all_digitsOf _) _
    · exact all_scientific (all_digitsOf _) _
  have hzero : ['0', '.', '0'].all isNumberChar = true := rfl
  have hminus : isNumberChar '-' = true := rfl
  unfold Decimal.floatText
  simp only
  split <;> split <;> simp only [List.all_cons, hminus, hbody, hzero, Bool.and_true]

theorem all_text (n : Number) : n.text.all isNumberChar = true := by
  cases n with
  | whole n =>
    have hminus : isNumberChar '-' = true := rfl
    rw [text, List.all_append, all_digitsOf]
    split <;> simp [hminus]
  | real x => exact all_floatText x.val

end Number

namespace Json

theorem le_toNat_of_isNumberChar {c : Char} (h : isNumberChar c = true) : 32 ≤ c.toNat := by
  simp only [isNumberChar, Bool.or_eq_true, beq_iff_eq] at h
  rcases h with ((((h | rfl) | rfl) | rfl) | rfl) | rfl
  · have hdigit : 48 ≤ c.toNat := (Char.isDigit_iff_toNat.mp h).1
    omega
  all_goals decide

theorem le_toNat_hexDigit (n : Nat) : 32 ≤ (hexDigit n).toNat := by
  have h : ∀ m < 16, 32 ≤ ((Nat.toDigits 16 m).headD '0').toNat := by decide
  exact h (n % 16) (Nat.mod_lt _ (by decide))

theorem le_toNat_of_mem_pair {a b : Char} (ha : 32 ≤ a.toNat) (hb : 32 ≤ b.toNat) :
    ∀ d ∈ [a, b], 32 ≤ d.toNat := by
  simp [ha, hb]

theorem le_toNat_of_mem_escapeChar {c : Char} : ∀ d ∈ escapeChar c, 32 ≤ d.toNat := by
  have hback : 32 ≤ '\\'.toNat := by decide
  unfold escapeChar
  split
  · exact le_toNat_of_mem_pair hback (by decide)
  split
  · exact le_toNat_of_mem_pair hback (by decide)
  split
  · exact le_toNat_of_mem_pair hback (by decide)
  split
  · exact le_toNat_of_mem_pair hback (by decide)
  split
  · exact le_toNat_of_mem_pair hback (by decide)
  split
  · exact le_toNat_of_mem_pair hback (by decide)
  split
  · exact le_toNat_of_mem_pair hback (by decide)
  split
  · simp [hexEscape, le_toNat_hexDigit]
  · intro d hd
    rw [List.mem_singleton.mp hd]
    omega

theorem le_toNat_of_mem_quoted (s : String) : ∀ c ∈ quoted s, 32 ≤ c.toNat := by
  intro c hc
  simp only [quoted, List.mem_cons, List.mem_append, List.mem_flatMap, List.not_mem_nil,
    or_false] at hc
  rcases hc with rfl | ⟨d, -, hd⟩ | rfl
  · decide
  · exact le_toNat_of_mem_escapeChar c hd
  · decide

theorem le_toNat_of_mem_separated {parts : List (List Char)}
    (h : ∀ p ∈ parts, ∀ c ∈ p, 32 ≤ c.toNat) : ∀ c ∈ separated [','] parts, 32 ≤ c.toNat := by
  induction parts with
  | nil => simp [separated]
  | cons p ps ih =>
    have hps := ih fun q hq => h q (by simp [hq])
    cases ps with
    | nil => exact h p (by simp)
    | cons q qs =>
      intro c hc
      simp only [separated, List.mem_append, List.mem_singleton] at hc
      rcases hc with (hc | rfl) | hc
      · exact h p (by simp) c hc
      · decide
      · exact hps c hc

mutual

theorem le_toNat_of_mem_compactChars :
    ∀ v : Json, ∀ c ∈ v.compactChars, 32 ≤ c.toNat
  | .null => by simp [compactChars]
  | .bool true => by simp [compactChars]
  | .bool false => by simp [compactChars]
  | .num n => fun c hc => le_toNat_of_isNumberChar (List.all_eq_true.mp n.all_text c hc)
  | .str s => le_toNat_of_mem_quoted s
  | .arr xs => by
    intro c hc
    simp only [compactChars, List.mem_cons, List.mem_append, List.not_mem_nil, or_false] at hc
    rcases hc with rfl | hc | rfl
    · decide
    · exact le_toNat_of_mem_separated (le_toNat_of_mem_compactItems xs) c hc
    · decide
  | .obj fs => by
    intro c hc
    simp only [compactChars, List.mem_cons, List.mem_append, List.not_mem_nil, or_false] at hc
    rcases hc with rfl | hc | rfl
    · decide
    · exact le_toNat_of_mem_separated (le_toNat_of_mem_compactFields fs) c hc
    · decide

theorem le_toNat_of_mem_compactItems :
    ∀ xs : List Json, ∀ p ∈ compactItems xs, ∀ c ∈ p, 32 ≤ c.toNat
  | [] => by simp [compactItems]
  | x :: xs => by
    intro p hp
    rcases List.mem_cons.mp hp with rfl | hp
    · exact le_toNat_of_mem_compactChars x
    · exact le_toNat_of_mem_compactItems xs p hp

theorem le_toNat_of_mem_compactFields :
    ∀ fs : List (String × Json), ∀ p ∈ compactFields fs, ∀ c ∈ p, 32 ≤ c.toNat
  | [] => by simp [compactFields]
  | (k, v) :: fs => by
    intro p hp
    rcases List.mem_cons.mp hp with rfl | hp
    · intro c hc
      rcases List.mem_append.mp hc with hc | hc
      · exact le_toNat_of_mem_quoted k c hc
      · rcases List.mem_cons.mp hc with rfl | hc
        · decide
        · exact le_toNat_of_mem_compactChars v c hc
    · exact le_toNat_of_mem_compactFields fs p hp

end

theorem newline_not_mem_compactChars (v : Json) : '\n' ∉ v.compactChars := by
  intro h
  exact absurd (le_toNat_of_mem_compactChars v '\n' h) (by decide)

end Json

end Clientele
