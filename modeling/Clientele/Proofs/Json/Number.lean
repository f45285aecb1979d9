import Mathlib.Data.List.TakeWhile
import Clientele.Proofs.Json.Printer
import Clientele.Proofs.Json.Tokens
import Clientele.Proofs.Json.Value

/-!
The text of a number is one token, from which an integer is always read back. For doubles this is
left open: it rests on the arithmetic of doubles, of which nothing is known here.
-/
set_option autoImplicit false

namespace Clientele

namespace Number

open Decimal (digitsOf)

theorem natOfDigits_digitsOf (n : Nat) : natOfDigits (digitsOf n) = n :=
  Nat.ofDigitChars_toDigits (by decide) (by decide)

theorem isDigit_of_mem_digitsOf {n : Nat} {c : Char} (h : c ∈ digitsOf n) : c.isDigit = true :=
  Nat.isDigit_of_mem_toDigits (by decide) (by decide) h

theorem head?_digitsOf_ne {n : Nat} (h : 0 < n) : (digitsOf n).head? ≠ some '0' := by
  induction n using Nat.strongRecOn with
  | _ n ih =>
    rw [digitsOf]
    by_cases hlt : n < 10
    · rw [Nat.toDigits_of_lt_base hlt, List.head?_cons, ne_eq, Option.some_inj,
        Nat.digitChar_eq_zero]
      exact Nat.ne_of_gt h
    · rw [Nat.toDigits_of_base_le (by decide) (Nat.not_lt.mp hlt),
        List.head?_append_of_ne_nil _ Nat.toDigits_ne_nil]
      exact ih (n / 10) (by omega) (by omega)

theorem isWholePart_digitsOf (n : Nat) : isWholePart (digitsOf n) = true := by
  cases n with
  | zero => rfl
  | succ n =>
    have hhead := head?_digitsOf_ne n.succ_pos
    have hne : digitsOf (n + 1) ≠ [] := Nat.toDigits_ne_nil
    obtain ⟨c, cs, hcs⟩ := List.exists_cons_of_ne_nil hne
    rw [hcs, List.head?_cons, ne_eq, Option.some_inj] at hhead
    rw [hcs]
    unfold isWholePart
    split <;> simp_all

def integerLexeme (negative : Bool) (n : Nat) : Lexeme := ⟨negative, digitsOf n, none, none⟩

theorem lexeme?_integer (negative : Bool) (n : Nat) :
    lexeme? ((if negative then ['-'] else []) ++ digitsOf n) = some (integerLexeme negative n) := by
  have htake : (digitsOf n).takeWhile Char.isDigit = digitsOf n :=
    List.takeWhile_eq_self_iff.mpr fun _ => isDigit_of_mem_digitsOf
  have hdrop : (digitsOf n).dropWhile Char.isDigit = [] :=
    List.dropWhile_eq_nil_iff.mpr fun _ => isDigit_of_mem_digitsOf
  cases negative with
  | true => simp [lexeme?, htake, hdrop, isWholePart_digitsOf, integerLexeme]
  | false =>
    have hsign : ∀ cs, digitsOf n ≠ '-' :: cs := by
      intro cs hcs
      have hdigit : '-'.isDigit = true := isDigit_of_mem_digitsOf (hcs ▸ List.mem_cons_self)
      cases hdigit
    simp [lexeme?, htake, hdrop, isWholePart_digitsOf, integerLexeme]

theorem number?_integerLexeme (w : Whole) :
    (integerLexeme (decide (w.val < 0)) w.val.natAbs).number? = some (.whole w) := by
  obtain ⟨n, lower, upper⟩ := w
  have hfits : ofInt? n = some (.whole ⟨n, lower, upper⟩) := dif_pos ⟨lower, upper⟩
  simp only [Lexeme.number?, integerLexeme, natOfDigits_digitsOf, decide_eq_true_eq]
  by_cases hneg : n < 0
  · have habs : -(n.natAbs : Int) = n := by omega
    have hne : n.natAbs ≠ 0 := by omega
    rw [if_pos hneg, if_neg hne, habs, hfits]
    rfl
  · have habs : (n.natAbs : Int) = n := by omega
    rw [if_neg hneg, habs, hfits]
    rfl

end Number

namespace Json

theorem tokens?_number {cs : List Char} {t : Token} (h : numberToken? cs.reverse = some t)
    (done : List Token) {rest : List Char} (hrest : EndsToken rest) :
    (Begun.number cs).tokens? done rest = Begun.none.tokens? (t :: done) rest := by
  cases rest with
  | nil => simp [Begun.tokens?, Begun.finish?, h]
  | cons c rest =>
    obtain ⟨hc, -⟩ := hrest
    cases hb : begin? c <;> simp [Begun.tokens?, Begun.feed?, hc, h, hb]

theorem tokens?_numberChars {ds : List Char} (hds : ds.all isNumberChar = true) (cs : List Char)
    (done : List Token) (rest : List Char) :
    (Begun.number cs).tokens? done (ds ++ rest) =
      (Begun.number (ds.reverse ++ cs)).tokens? done rest := by
  induction ds generalizing cs with
  | nil => rfl
  | cons c ds ih =>
    rw [List.all_cons, Bool.and_eq_true] at hds
    simp only [List.cons_append, Begun.tokens?, Begun.feed?, hds.1, if_true, List.reverse_nil,
      List.nil_append]
    rw [ih hds.2]
    simp

theorem reads_number {c : Char} {ds : List Char} {t : Token} (hc : c = '-' ∨ c.isDigit = true)
    (hds : ds.all isNumberChar = true) (ht : numberToken? (c :: ds) = some t) :
    Reads (c :: ds) [t] := by
  intro done rest hrest
  have hbegin : begin? c = some ([], .number [c]) := by
    rcases hc with rfl | hc
    · rfl
    · have hne (d : Char) (hd : d.isDigit = false) : c ≠ d := by
        rintro rfl
        cases hd.symm.trans hc
      simp [begin?, isBlank, hc, hne ' ' rfl, hne '\n' rfl, hne '\r' rfl, hne '\t' rfl, hne '[' rfl,
        hne ']' rfl, hne '\x7b' rfl, hne '\x7d' rfl, hne ',' rfl, hne ':' rfl, hne '"' rfl]
  simp only [List.cons_append, Begun.tokens?, Begun.feed?, hbegin, List.reverse_nil,
    List.nil_append, List.reverse_singleton]
  rw [tokens?_numberChars hds, tokens?_number (by simpa using ht) done hrest]

theorem numberReads_whole (w : Whole) : NumberReads (.whole w) := by
  have htext : (Number.whole w).text =
      (if decide (w.val < 0) then ['-'] else []) ++ Decimal.digitsOf w.val.natAbs := by
    simp [Number.text]
  have htoken : numberToken? (Number.whole w).text = some (.number (some (.whole w))) := by
    rw [htext, numberToken?, Number.lexeme?_integer, Option.map_some, Number.number?_integerLexeme]
  have hne : (Number.whole w).text ≠ [] := by
    rw [htext]
    exact List.append_ne_nil_of_right_ne_nil _ Nat.toDigits_ne_nil
  have hchars : ∀ c ∈ (Number.whole w).text, c = '-' ∨ c.isDigit = true := by
    intro c hc
    rw [htext, List.mem_append] at hc
    rcases hc with hc | hc
    · split at hc
      · exact .inl (List.mem_singleton.mp hc)
      · cases hc
    · exact .inr (Number.isDigit_of_mem_digitsOf hc)
  have hall := Number.all_text (.whole w)
  rw [NumberReads]
  obtain ⟨c, ds, hcs⟩ := List.exists_cons_of_ne_nil hne
  rw [hcs] at htoken hchars hall ⊢
  rw [List.all_cons, Bool.and_eq_true] at hall
  exact reads_number (hchars c List.mem_cons_self) hall.2 htoken

def DoubleReads (n : Number) : Prop := ∀ x, n = .real x → NumberReads n

theorem numberReads_of_doubleReads {n : Number} (h : DoubleReads n) : NumberReads n := by
  cases n with
  | whole w => exact numberReads_whole w
  | real x => exact h x rfl

section

variable {P Q : Number → Prop}

theorem allItemNumbers_iff {xs : List Json} : AllItemNumbers P xs ↔ ∀ x ∈ xs, x.AllNumbers P := by
  induction xs with
  | nil => simp [AllItemNumbers]
  | cons x xs ih => rw [AllItemNumbers, ih, List.forall_mem_cons]

theorem allFieldNumbers_iff {fs : Fields} : AllFieldNumbers P fs ↔ ∀ f ∈ fs, f.2.AllNumbers P := by
  induction fs with
  | nil => simp [AllFieldNumbers]
  | cons f fs ih => rw [AllFieldNumbers, ih, List.forall_mem_cons]

theorem AllNumbers.imp (hPQ : ∀ n, P n → Q n) {v : Json} (h : v.AllNumbers P) : v.AllNumbers Q := by
  induction v using Json.induct with
  | num n => exact hPQ n h
  | arr xs ih => exact allItemNumbers_iff.mpr fun x hx => ih x hx (allItemNumbers_iff.mp h x hx)
  | obj fs ih => exact allFieldNumbers_iff.mpr fun f hf => ih f hf (allFieldNumbers_iff.mp h f hf)
  | _ => trivial

end

mutual

def decideNumbers (P : Number → Prop) [DecidablePred P] : (v : Json) → Decidable (v.AllNumbers P)
  | .null | .bool _ | .str _ => .isTrue trivial
  | .num n => inferInstanceAs (Decidable (P n))
  | .arr xs => decideItemNumbers P xs
  | .obj fs => decideFieldNumbers P fs

def decideItemNumbers (P : Number → Prop) [DecidablePred P] :
    (xs : List Json) → Decidable (AllItemNumbers P xs)
  | [] => .isTrue trivial
  | x :: xs => @instDecidableAnd _ _ (decideNumbers P x) (decideItemNumbers P xs)

def decideFieldNumbers (P : Number → Prop) [DecidablePred P] :
    (fs : Fields) → Decidable (AllFieldNumbers P fs)
  | [] => .isTrue trivial
  | (_, v) :: fs => @instDecidableAnd _ _ (decideNumbers P v) (decideFieldNumbers P fs)

end

instance decidableAllNumbers {P : Number → Prop} [DecidablePred P] (v : Json) :
    Decidable (v.AllNumbers P) := decideNumbers P v

end Json

end Clientele
