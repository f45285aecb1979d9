import Mathlib.Data.List.Forall2
import Clientele.Json.Printer
import Clientele.Json.Token

/-!
The compact text of a value is cut into the tokens of the value. Only a number or a word can be
continued by what follows, so every text of a value is read in one way before a comma, a colon or
the end of what is open.
-/
set_option autoImplicit false

namespace Clientele.Json

def separatedTokens : List (List Token) → List Token
  | [] => []
  | [p] => p
  | p :: ps => p ++ .comma :: separatedTokens ps

mutual

def tokensOf : Json → List Token
  | .null => [.word .null]
  | .bool b => [.word (.bool b)]
  | .num n => [.number (some n)]
  | .str s => [.text (some s)]
  | .arr xs => .openList :: (separatedTokens (itemTokens xs) ++ [.closeList])
  | .obj fs => .openObject :: (separatedTokens (fieldTokens fs) ++ [.closeObject])

def itemTokens : List Json → List (List Token)
  | [] => []
  | x :: xs => tokensOf x :: itemTokens xs

def fieldTokens : List (String × Json) → List (List Token)
  | [] => []
  | (k, v) :: fs => (.text (some k) :: .colon :: tokensOf v) :: fieldTokens fs

end

/-- What follows a token does not continue it. -/
def EndsToken : List Char → Prop
  | [] => True
  | c :: _ => isNumberChar c = false ∧ isWordChar c = false

/-- A text is read as these tokens, whatever follows that does not continue the last of them. -/
def Reads (cs : List Char) (ts : List Token) : Prop :=
  ∀ done rest, EndsToken rest →
    Begun.none.tokens? done (cs ++ rest) = Begun.none.tokens? (ts.reverse ++ done) rest

theorem EndsToken.append {cs : List Char} (h : EndsToken cs) (hne : cs ≠ []) (rest : List Char) :
    EndsToken (cs ++ rest) := by
  cases cs with
  | nil => exact absurd rfl hne
  | cons c cs => exact h

theorem reads_nil : Reads [] [] := fun _ _ _ => rfl

theorem Reads.append {cs ds : List Char} {ts us : List Token} (h : Reads cs ts) (hd : Reads ds us)
    (hends : EndsToken ds) (hne : ds ≠ []) : Reads (cs ++ ds) (ts ++ us) := by
  intro done rest hrest
  rw [List.append_assoc, h done _ (hends.append hne rest), hd _ _ hrest]
  simp

theorem Reads.begin {c : Char} {us : List Token} {cs : List Char} {ts : List Token}
    (hc : begin? c = some (us, .none)) (h : Reads cs ts) : Reads (c :: cs) (us ++ ts) := by
  intro done rest hrest
  simp only [List.cons_append, Begun.tokens?, Begun.feed?, hc]
  rw [h _ _ hrest]
  simp

theorem Reads.blanks {bs cs : List Char} {ts : List Token} (hbs : ∀ c ∈ bs, isBlank c = true)
    (h : Reads cs ts) : Reads (bs ++ cs) ts := by
  induction bs with
  | nil => exact h
  | cons c bs ih =>
    rw [List.forall_mem_cons] at hbs
    have hc : begin? c = some ([], .none) := if_pos hbs.1
    exact Reads.begin hc (ih hbs.2)

theorem Reads.separated {parts : List (List Char)} {tokens : List (List Token)} {bs ds : List Char}
    {us : List Token} (hbs : ∀ c ∈ bs, isBlank c = true) (h : List.Forall₂ Reads parts tokens)
    (hd : Reads ds us) (hends : EndsToken ds) (hne : ds ≠ []) :
    Reads (separated (',' :: bs) parts ++ ds) (separatedTokens tokens ++ us) := by
  induction h with
  | nil => exact hd
  | @cons p t ps ts hp hps ih =>
    cases hps with
    | nil => exact hp.append hd hends hne
    | cons hq hqs =>
      have hcomma : begin? ',' = some ([.comma], .none) := rfl
      simpa [Json.separated, separatedTokens] using
        hp.append (Reads.begin hcomma (ih.blanks hbs)) ⟨rfl, rfl⟩ (by simp)

theorem tokens?_word {cs : List Char} {t : Token} (h : wordToken? cs.reverse = some t)
    (done : List Token) {rest : List Char} (hrest : EndsToken rest) :
    (Begun.word cs).tokens? done rest = Begun.none.tokens? (t :: done) rest := by
  cases rest with
  | nil => simp [Begun.tokens?, Begun.finish?, h]
  | cons c rest =>
    obtain ⟨-, hc⟩ := hrest
    cases hb : begin? c <;> simp [Begun.tokens?, Begun.feed?, hc, h, hb]

theorem reads_null : Reads ['n', 'u', 'l', 'l'] [.word .null] := fun done _ hrest =>
  @tokens?_word ['l', 'l', 'u', 'n'] _ rfl done _ hrest

theorem reads_true : Reads ['t', 'r', 'u', 'e'] [.word (.bool true)] := fun done _ hrest =>
  @tokens?_word ['e', 'u', 'r', 't'] _ rfl done _ hrest

theorem reads_false : Reads ['f', 'a', 'l', 's', 'e'] [.word (.bool false)] :=
  fun done _ hrest => @tokens?_word ['e', 's', 'l', 'a', 'f'] _ rfl done _ hrest

theorem hexValue?_hexDigit (n : Nat) : hexValue? (hexDigit n) = some (n % 16) := by
  have h : ∀ m < 16, hexValue? ((Nat.toDigits 16 m).headD '0') = some m := by decide
  exact h (n % 16) (Nat.mod_lt _ (by decide))

/-- A way to write characters in a string, each of which is read back. -/
def IsEscape (escape : Char → List Char) : Prop :=
  ∀ (c : Char) (cs rest : List Char) (done : List Token),
    (Begun.text (some cs)).tokens? done (escape c ++ rest) =
      (Begun.text (some (c :: cs))).tokens? done rest

section

variable {c : Char} (cs rest : List Char) (done : List Token)

theorem tokens?_hexEscape (hc : c.toNat < 0xD800) :
    (Begun.text (some cs)).tokens? done (hexEscape c ++ rest) =
      (Begun.text (some (c :: cs))).tokens? done rest := by
  have hdigits : 16 * (16 * (16 * (16 * 0 + c.toNat / 4096 % 16) + c.toNat / 256 % 16) +
      c.toNat / 16 % 16) + c.toNat % 16 = c.toNat := by omega
  have hunit : closeUnit (some cs) c.toNat none = .text (some (c :: cs)) := by
    have hlead : ¬(0xD800 ≤ c.toNat ∧ c.toNat ≤ 0xDBFF) := by omega
    have htrail : ¬(0xDC00 ≤ c.toNat ∧ c.toNat ≤ 0xDFFF) := by omega
    rw [closeUnit, if_neg hlead, if_neg htrail, Option.map_some, Char.ofNat_toNat]
  rw [← hunit, ← hdigits]
  simp [hexEscape, Begun.tokens?, Begun.feed?, feedText?, feedEscape?, hexValue?_hexDigit]

theorem tokens?_raw (hquote : c ≠ '"') (hback : c ≠ '\\') (hlow : ¬c.toNat < 32) :
    (Begun.text (some cs)).tokens? done ([c] ++ rest) =
      (Begun.text (some (c :: cs))).tokens? done rest := by
  have hc : feedText? (some cs) c = some ([], .text (some (c :: cs))) := by
    simp [feedText?, hquote, hback, hlow]
  simp [Begun.tokens?, Begun.feed?, hc]

end

theorem isEscape_escapeChar : IsEscape escapeChar := by
  intro c cs rest done
  unfold escapeChar
  split_ifs with hquote hback hn hr ht hb hf hlow
  · subst hquote; rfl
  · subst hback; rfl
  · subst hn; rfl
  · subst hr; rfl
  · subst ht; rfl
  · have hc : c = .ofNat 8 := by rw [← hb, Char.ofNat_toNat]
    subst hc
    rfl
  · have hc : c = .ofNat 12 := by rw [← hf, Char.ofNat_toNat]
    subst hc
    rfl
  · exact tokens?_hexEscape cs rest done (by omega)
  · exact tokens?_raw cs rest done hquote hback hlow

namespace IsEscape

variable {escape : Char → List Char}

theorem tokens?_flatMap (h : IsEscape escape) (s cs rest : List Char) (done : List Token) :
    (Begun.text (some cs)).tokens? done (s.flatMap escape ++ rest) =
      (Begun.text (some (s.reverse ++ cs))).tokens? done rest := by
  induction s generalizing cs with
  | nil => rfl
  | cons c s ih =>
    rw [List.flatMap_cons, List.append_assoc, h, ih]
    simp

theorem reads (h : IsEscape escape) (s : String) :
    Reads ('"' :: (s.toList.flatMap escape ++ ['"'])) [.text (some s)] := by
  intro done rest _
  have hopen : begin? '"' = some ([], .text (some [])) := rfl
  have hclose (cs : List Char) :
      feedText? (some cs) '"' = some ([.text (some (.ofList cs.reverse))], .none) := rfl
  simp only [List.cons_append, List.append_assoc, Begun.tokens?, Begun.feed?, hopen,
    List.reverse_nil, List.nil_append]
  rw [h.tokens?_flatMap]
  simp [Begun.tokens?, Begun.feed?, hclose]

end IsEscape

theorem reads_quoted (s : String) : Reads (quoted s) [.text (some s)] := isEscape_escapeChar.reads s

def NumberReads (n : Number) : Prop := Reads n.text [.number (some n)]

mutual

def AllNumbers (P : Number → Prop) : Json → Prop
  | .num n => P n
  | .arr xs => AllItemNumbers P xs
  | .obj fs => AllFieldNumbers P fs
  | _ => True

def AllItemNumbers (P : Number → Prop) : List Json → Prop
  | [] => True
  | x :: xs => AllNumbers P x ∧ AllItemNumbers P xs

def AllFieldNumbers (P : Number → Prop) : List (String × Json) → Prop
  | [] => True
  | (_, v) :: fs => AllNumbers P v ∧ AllFieldNumbers P fs

end

mutual

/-- The compact text of a value is read as its tokens. -/
theorem reads_compactChars :
    ∀ v : Json, v.AllNumbers NumberReads → Reads v.compactChars v.tokensOf
  | .null, _ => reads_null
  | .bool true, _ => reads_true
  | .bool false, _ => reads_false
  | .num _, h => h
  | .str s, _ => reads_quoted s
  | .arr xs, h => by
    have hopen : begin? '[' = some ([.openList], .none) := rfl
    have hclose : begin? ']' = some ([.closeList], .none) := rfl
    exact Reads.begin hopen (Reads.separated (by simp) (reads_compactItems xs h)
      (Reads.begin hclose reads_nil) ⟨rfl, rfl⟩ (by simp))
  | .obj fs, h => by
    have hopen : begin? '\x7b' = some ([.openObject], .none) := rfl
    have hclose : begin? '\x7d' = some ([.closeObject], .none) := rfl
    exact Reads.begin hopen (Reads.separated (by simp) (reads_compactFields fs h)
      (Reads.begin hclose reads_nil) ⟨rfl, rfl⟩ (by simp))

theorem reads_compactItems :
    ∀ xs : List Json, AllItemNumbers NumberReads xs →
      List.Forall₂ Reads (compactItems xs) (itemTokens xs)
  | [], _ => .nil
  | x :: xs, h => .cons (reads_compactChars x h.1) (reads_compactItems xs h.2)

theorem reads_compactFields :
    ∀ fs : List (String × Json), AllFieldNumbers NumberReads fs →
      List.Forall₂ Reads (compactFields fs) (fieldTokens fs)
  | [], _ => .nil
  | (k, v) :: fs, h => by
    have hcolon : begin? ':' = some ([.colon], .none) := rfl
    exact .cons ((reads_quoted k).append (Reads.begin hcolon (reads_compactChars v h.1))
      ⟨rfl, rfl⟩ (by simp)) (reads_compactFields fs h.2)

end

theorem tokens?_compactChars {v : Json} (h : v.AllNumbers NumberReads) :
    tokens? v.compactChars = some v.tokensOf := by
  have hv := reads_compactChars v h [] [] trivial
  simpa [tokens?, Begun.tokens?, Begun.finish?] using hv

end Clientele.Json
