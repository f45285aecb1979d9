import Mathlib.Data.List.Induction
import Clientele.Proofs.Audit.Journal
import Clientele.Audit.Trail

/-!
Which texts are opened as journals: those in which every line that is not empty has a checksum, a
blank and the body of an entry with that checksum, and amends no record that is not there yet. A
checksum is written as eight digits; it is read as any number of them, and after a plus.
-/
set_option autoImplicit false

namespace Clientele

namespace Identifier

theorem isSome_hexValue?_of_mem {ds : List Char} {start n : Nat} {c : Char}
    (h : ds.foldlM (fun n c => (hexValue? c).map (16 * n + ·)) start = some n) (hc : c ∈ ds) :
    (hexValue? c).isSome := by
  induction ds generalizing start with
  | nil => cases hc
  | cons d ds ih =>
    obtain ⟨next, hnext, hrest⟩ := Option.bind_eq_some_iff.mp h
    rcases List.mem_cons.mp hc with rfl | hc
    · obtain ⟨k, hk, -⟩ := Option.map_eq_some_iff.mp hnext
      rw [hk]
      rfl
    · exact ih hrest hc

theorem not_mem_of_valueOf? {ds : List Char} {n : Nat} (h : valueOf? ds = some n) {c : Char}
    (hc : hexValue? c = none) : c ∉ ds := by
  intro hmem
  have hsome := isSome_hexValue?_of_mem h hmem
  rw [hc] at hsome
  cases hsome

end Identifier

namespace Audit

/-- A number as a checksum is read: hexadecimal digits, which a plus may precede. -/
inductive IsNumeral (n : Nat) : List Char → Prop
  | digits {ds : List Char} (hne : ds ≠ []) (value : Identifier.valueOf? ds = some n) : IsNumeral n ds
  | plus {ds : List Char} (hne : ds ≠ []) (value : Identifier.valueOf? ds = some n) :
      IsNumeral n ('+' :: ds)

structure IsWritten (n : Nat) (ds : List Char) : Prop where
  length : ds.length = 8
  value : Identifier.valueOf? ds = some n

variable {n : Nat} {cs sum body : List Char} {e : Entry}

theorem IsWritten.isNumeral (h : IsWritten n cs) : IsNumeral n cs := by
  refine .digits ?_ h.value
  rintro rfl
  cases h.length

theorem IsNumeral.isWritten (h : IsNumeral n cs) (hlength : cs.length = 8) (hplus : '+' ∉ cs) :
    IsWritten n cs := by
  cases h with
  | digits _ value => exact ⟨hlength, value⟩
  | plus => simp at hplus

theorem IsNumeral.blank_not_mem (h : IsNumeral n cs) : ' ' ∉ cs := by
  cases h with
  | digits _ value => exact Identifier.not_mem_of_valueOf? value rfl
  | plus _ value =>
    rw [List.mem_cons, not_or]
    exact ⟨by decide, Identifier.not_mem_of_valueOf? value rfl⟩

theorem readChecksum?_eq_some_iff :
    readChecksum? cs = some n ↔ IsNumeral n cs ∧ n < 0x100000000 := by
  have hread (ds : List Char) : (if ds.isEmpty then none else (Identifier.valueOf? ds).bind fun n =>
      if n < 0x100000000 then some n else none) = some n ↔
        (ds ≠ [] ∧ Identifier.valueOf? ds = some n) ∧ n < 0x100000000 := by
    cases ds with
    | nil => simp
    | cons d ds =>
      simp only [List.isEmpty_cons, Bool.false_eq_true, if_false, Option.bind_eq_some_iff, ne_eq,
        reduceCtorEq, not_false_eq_true, true_and, Option.ite_none_right_eq_some, Option.some.injEq]
      exact ⟨fun ⟨_, hvalue, hlt, heq⟩ => heq ▸ ⟨hvalue, hlt⟩, fun ⟨hvalue, hlt⟩ => ⟨n, hvalue, hlt, rfl⟩⟩
  unfold readChecksum?
  split
  · rename_i ds
    rw [hread]
    refine and_congr_left' ⟨fun ⟨hne, hvalue⟩ => .plus hne hvalue, fun h => ?_⟩
    cases h with
    | digits _ value => exact absurd List.mem_cons_self (Identifier.not_mem_of_valueOf? value rfl)
    | plus hne value => exact ⟨hne, value⟩
  · rename_i hplus
    rw [hread]
    refine and_congr_left' ⟨fun ⟨hne, hvalue⟩ => .digits hne hvalue, fun h => ?_⟩
    cases h with
    | digits hne value => exact ⟨hne, value⟩
    | plus => exact absurd rfl (hplus _)

def Entry.ofBody? (body : List Char) : Option Entry :=
  (Json.parseRaw? (.ofList body)).bind Entry.ofJson?

/-- A line that tells of an entry: the checksum of the body, a blank, and the body. -/
inductive Tells (Numeral : Nat → List Char → Prop) : List Char → Entry → Prop
  | intro {sum body : List Char} {e : Entry} (number : Numeral (checksum body) sum)
      (entry : Entry.ofBody? body = some e) : Tells Numeral (sum ++ ' ' :: body) e

theorem decodeLine_eq_ok_iff : decodeLine cs = .ok e ↔ Tells IsNumeral cs e := by
  constructor
  · intro h
    unfold decodeLine at h
    split at h
    · cases h
    rename_i sum body hcut
    obtain ⟨rfl, -⟩ := cutLine?_eq_some_iff.mp hcut
    split at h
    · cases h
    rename_i n hn
    split at h
    · cases h
    rename_i hsum
    obtain rfl := not_not.mp hsum
    rw [← Entry.ofBody?] at h
    cases he : Entry.ofBody? body with
    | none => rw [he] at h; cases h
    | some e' =>
      rw [he] at h
      cases h
      exact .intro (readChecksum?_eq_some_iff.mp hn).1 he
  · rintro ⟨number, entry⟩
    rename_i sum body
    rw [decodeLine, cutLine?_eq_some_iff.mpr ⟨rfl, number.blank_not_mem⟩]
    simp only [readChecksum?_eq_some_iff.mpr ⟨number, Entry.checksum_lt body⟩, ne_eq, not_true, if_false]
    rw [← Entry.ofBody?, entry]
    rfl

variable {rs rs' : List Record} {line : List Char} {before ls : List (List Char)}

def Holds (rs : List Record) (id : Identifier) : Prop := ∃ r ∈ rs, r.id = id

theorem amendIn_isSome_iff (id : Identifier) (c : Change) (time : Time.Instant) :
    (amendIn rs id c time).isSome ↔ Holds rs id := by
  rw [amendIn, isSome_modifyLast, List.any_eq_true]
  exact exists_congr fun r => and_congr_right fun _ => beq_iff_eq

theorem holds_of_amendIn {id : Identifier} {c : Change} {time : Time.Instant}
    (h : amendIn rs id c time = some rs') (other : Identifier) : Holds rs' other ↔ Holds rs other := by
  rw [Holds, Holds, ← List.mem_map, map_modifyLast h Record.id fun _ => rfl, List.mem_map]

theorem holds_of_replayEntry (h : replayEntry rs e = .ok rs') (id : Identifier) :
    Holds rs' id ↔ Holds rs id ∨ ∃ r, e = .record r ∧ r.id = id := by
  cases e with
  | record r =>
    cases h
    simp [Holds, or_and_right, exists_or]
  | amend other c time =>
    simp only [reduceCtorEq, false_and, exists_false, or_false]
    rw [replayEntry] at h
    cases hamend : amendIn rs other c time with
    | none =>
      rw [hamend] at h
      cases h
    | some rs'' =>
      rw [hamend] at h
      cases h
      exact holds_of_amendIn hamend id

/-- A line that can be replayed after others: it tells of a record, or it amends one that they tell
of. -/
inductive IsGood (Numeral : Nat → List Char → Prop) (before : List (List Char)) (line : List Char) : Prop
  | record (r : Record) (tells : Tells Numeral line (.record r))
  | amend (id : Identifier) (change : Change) (time : Time.Instant)
      (tells : Tells Numeral line (.amend id change time)) (l : List Char) (r : Record) (mem : l ∈ before)
      (told : Tells Numeral l (.record r)) (same : r.id = id)

def AreGood (Numeral : Nat → List Char → Prop) (ls : List (List Char)) : Prop :=
  ∀ before line after, ls = before ++ line :: after → line ≠ [] → IsGood Numeral before line

/-- The records are those that lines tell of. -/
def ToldBy (rs : List Record) (ls : List (List Char)) : Prop :=
  ∀ id, Holds rs id ↔ ∃ l ∈ ls, ∃ r, Tells IsNumeral l (.record r) ∧ r.id = id

theorem areGood_nil {Numeral : Nat → List Char → Prop} : AreGood Numeral [] :=
  fun _ _ _ h => absurd h.symm (List.append_ne_nil_of_right_ne_nil _ (List.cons_ne_nil _ _))

theorem areGood_concat {Numeral : Nat → List Char → Prop} :
    AreGood Numeral (ls ++ [line]) ↔ AreGood Numeral ls ∧ (line ≠ [] → IsGood Numeral ls line) := by
  constructor
  · intro h
    refine ⟨fun before l after hls => h before l (after ++ [line]) ?_, h ls line [] rfl⟩
    rw [hls, List.append_assoc, List.cons_append]
  · rintro ⟨hls, hline⟩ before l after heq
    rcases after.eq_nil_or_concat' with rfl | ⟨after, last, rfl⟩
    · obtain ⟨rfl, hl⟩ := List.append_inj' heq rfl
      obtain rfl := List.singleton_inj.mp hl
      exact hline
    · rw [← List.cons_append, ← List.append_assoc] at heq
      exact hls before l after (List.append_inj' heq rfl).1

theorem not_tells_nil {Numeral : Nat → List Char → Prop} : ¬Tells Numeral [] e := by
  intro h
  generalize hline : [] = line at h
  cases h
  simp at hline

theorem ToldBy.concat_nil (h : ToldBy rs before) : ToldBy rs (before ++ [[]]) := by
  intro id
  rw [h id]
  simp [or_and_right, exists_or, not_tells_nil]

/-- A line is replayed exactly if it can be. -/
theorem ToldBy.replayLine_isOk_iff (h : ToldBy rs before) :
    (∃ rs', replayLine rs line = .ok rs') ↔ IsGood IsNumeral before line := by
  constructor
  · rintro ⟨rs', hline⟩
    obtain ⟨e, he, hentry⟩ := Except.bind_eq_ok_iff.mp hline
    have htells := decodeLine_eq_ok_iff.mp he
    cases e with
    | record r => exact .record r htells
    | amend id c time =>
      have hsome : (amendIn rs id c time).isSome := by
        rw [replayEntry] at hentry
        cases hamend : amendIn rs id c time with
        | none =>
          rw [hamend] at hentry
          cases hentry
        | some => rfl
      obtain ⟨l, hl, r, htold, hid⟩ := (h id).mp ((amendIn_isSome_iff id c time).mp hsome)
      exact .amend id c time htells l r hl htold hid
  · intro hgood
    cases hgood with
    | record r htells =>
      exact ⟨rs ++ [r], by rw [replayLine, decodeLine_eq_ok_iff.mpr htells]; rfl⟩
    | amend id c time htells l r hl htold hid =>
      have hholds : Holds rs id := (h id).mpr ⟨l, hl, r, htold, hid⟩
      obtain ⟨rs', hamend⟩ := Option.isSome_iff_exists.mp ((amendIn_isSome_iff id c time).mpr hholds)
      refine ⟨rs', ?_⟩
      rw [replayLine, decodeLine_eq_ok_iff.mpr htells, Except.bind, replayEntry, hamend]
      rfl

theorem ToldBy.of_replayLine (h : ToldBy rs before) (hline : replayLine rs line = .ok rs') :
    ToldBy rs' (before ++ [line]) := by
  obtain ⟨e, he, hentry⟩ := Except.bind_eq_ok_iff.mp hline
  have htells (e' : Entry) : Tells IsNumeral line e' ↔ e = e' := by
    rw [← decodeLine_eq_ok_iff, he, Except.ok.injEq]
  intro id
  rw [holds_of_replayEntry hentry, h id]
  simp [or_and_right, exists_or, htells]

theorem replayLines_append_of_error {number : Nat} {fault : Nat × LineFault}
    (h : replayLines rs number ls = .error fault) (more : List (List Char)) :
    replayLines rs number (ls ++ more) = .error fault := by
  induction ls generalizing rs number with
  | nil => cases h
  | cons l ls ih =>
    rw [replayLines] at h
    rw [List.cons_append, replayLines]
    split at h
    · rename_i hempty
      rw [if_pos hempty]
      exact ih h
    · rename_i hempty
      rw [if_neg hempty]
      split at h
      · exact h
      · exact ih h

/-- Lines are replayed up to the first that cannot be. -/
theorem replayLines_outcome (ls : List (List Char)) :
    (∃ rs, replayLines [] 1 ls = .ok rs ∧ ToldBy rs ls ∧ AreGood IsNumeral ls) ∨
    ∃ before line after fault, ls = before ++ line :: after ∧ line ≠ [] ∧ AreGood IsNumeral before ∧
      ¬IsGood IsNumeral before line ∧ replayLines [] 1 ls = .error (before.length + 1, fault) := by
  induction ls using List.reverseRecOn with
  | nil => exact .inl ⟨[], rfl, by simp [ToldBy, Holds], areGood_nil⟩
  | append_singleton ls line ih =>
    rcases ih with ⟨rs, hreplay, htold, hgood⟩ | ⟨before, bad, after, fault, rfl, hbad⟩
    · rw [replayLines_append hreplay, areGood_concat]
      by_cases hempty : line = []
      · subst hempty
        exact .inl ⟨rs, rfl, htold.concat_nil, hgood, fun hne => absurd rfl hne⟩
      · rw [replayLines, if_neg (by simpa using hempty)]
        cases hline : replayLine rs line with
        | ok rs' =>
          exact .inl ⟨rs', rfl, htold.of_replayLine hline, hgood, fun _ =>
            htold.replayLine_isOk_iff.mp ⟨rs', hline⟩⟩
        | error fault =>
          refine .inr ⟨ls, line, [], fault, rfl, hempty, hgood, fun hisGood => ?_, ?_⟩
          · obtain ⟨rs', hok⟩ := htold.replayLine_isOk_iff.mpr hisGood
            cases hline.symm.trans hok
          · rw [Nat.add_comm]
    · obtain ⟨hne, hgood, hisBad, herror⟩ := hbad
      refine .inr ⟨before, bad, after ++ [line], fault, ?_, hne, hgood, hisBad, ?_⟩
      · rw [List.append_assoc, List.cons_append]
      · exact replayLines_append_of_error herror _

/-- A text is opened exactly if its lines can be replayed; otherwise the first line that cannot be
is reported by its number. -/
structure OpensBy (Numeral : Nat → List Char → Prop) (text : List Char) : Prop where
  opened : (∃ rs, openJournal text = .ok (.journal rs text)) ↔ AreGood Numeral (Text.lines text)
  refused : ¬AreGood Numeral (Text.lines text) → ∃ before line after fault,
    Text.lines text = before ++ line :: after ∧ line ≠ [] ∧ AreGood Numeral before ∧
      ¬IsGood Numeral before line ∧
      openJournal text = .error (.corrupted (before.length + 1) fault)

theorem opensBy_isNumeral (text : List Char) : OpensBy IsNumeral text := by
  rcases replayLines_outcome (Text.lines text) with
    ⟨rs, hreplay, -, hgood⟩ | ⟨before, line, after, fault, hlines, hne, hgood, hbad, hreplay⟩
  · have hopen : openJournal text = .ok (.journal rs text) := by
      rw [openJournal, readJournal, replay, hreplay]
      rfl
    exact ⟨iff_of_true ⟨rs, hopen⟩ hgood, fun hbad => absurd hgood hbad⟩
  · have hopen : openJournal text = .error (.corrupted (before.length + 1) fault) := by
      rw [openJournal, readJournal, replay, hreplay]
      rfl
    have hnot : ¬AreGood IsNumeral (Text.lines text) := fun h => hbad (h before line after hlines hne)
    have hclosed : ¬∃ rs, openJournal text = .ok (.journal rs text) := by
      rintro ⟨rs, hok⟩
      cases hok.symm.trans hopen
    exact ⟨iff_of_false hclosed hnot, fun _ =>
      ⟨before, line, after, fault, hlines, hne, hgood, hbad, hopen⟩⟩

section

variable {Numeral Numeral' : Nat → List Char → Prop}

theorem IsGood.imp (h : ∀ l ∈ before ++ [line], ∀ e, Tells Numeral l e → Tells Numeral' l e)
    (hgood : IsGood Numeral before line) : IsGood Numeral' before line := by
  have hline := h line (by simp)
  cases hgood with
  | record r tells => exact .record r (hline _ tells)
  | amend id c time tells l r mem told same =>
    exact .amend id c time (hline _ tells) l r mem (h l (List.mem_append_left _ mem) _ told) same

theorem AreGood.imp (h : ∀ l ∈ ls, ∀ e, Tells Numeral l e → Tells Numeral' l e)
    (hgood : AreGood Numeral ls) : AreGood Numeral' ls := by
  rintro before line after rfl hne
  refine (hgood before line after rfl hne).imp fun l hl => h l ?_
  rw [List.append_cons]
  exact List.mem_append_left after hl

theorem OpensBy.congr {text : List Char}
    (h : ∀ l ∈ Text.lines text, ∀ e, Tells Numeral l e ↔ Tells Numeral' l e)
    (hopens : OpensBy Numeral text) : OpensBy Numeral' text := by
  have hall : AreGood Numeral (Text.lines text) ↔ AreGood Numeral' (Text.lines text) :=
    ⟨.imp fun l hl e => (h l hl e).mp, .imp fun l hl e => (h l hl e).mpr⟩
  refine ⟨hopens.opened.trans hall, fun hbad => ?_⟩
  obtain ⟨before, line, after, fault, hlines, hne, hgood, hline, herror⟩ :=
    hopens.refused (mt hall.mp hbad)
  have hmem {l : List Char} (hl : l ∈ before ++ [line]) : l ∈ Text.lines text := by
    rw [hlines, List.append_cons]
    exact List.mem_append_left after hl
  exact ⟨before, line, after, fault, hlines, hne,
    hgood.imp fun l hl e => (h l (hmem (List.mem_append_left _ hl)) e).mp,
    fun hgood' => hline (hgood'.imp fun l hl e => (h l (hmem hl) e).mpr), herror⟩

end

theorem Tells.of_isWritten (h : Tells IsWritten line e) : Tells IsNumeral line e := by
  obtain ⟨number, entry⟩ := h
  exact .intro number.isNumeral entry

/-- What stands before the first blank of a line has eight characters and no plus. -/
def HavePlainSums (ls : List (List Char)) : Prop :=
  ∀ sum body, sum ++ ' ' :: body ∈ ls → ' ' ∉ sum → sum.length = 8 ∧ '+' ∉ sum

theorem HavePlainSums.tells_iff (h : HavePlainSums ls) (hline : line ∈ ls) :
    Tells IsNumeral line e ↔ Tells IsWritten line e := by
  refine ⟨fun htells => ?_, Tells.of_isWritten⟩
  obtain ⟨number, entry⟩ := htells
  obtain ⟨hlength, hplus⟩ := h _ _ hline number.blank_not_mem
  exact .intro (number.isWritten hlength hplus) entry

/-- A text is opened by the numerals that are read. It is opened if its checksums are as they are
written, and only then where every line has eight characters before its first blank, and no plus
among them. -/
theorem openJournal_accepts (text : List Char) :
    OpensBy IsNumeral text ∧
    (AreGood IsWritten (Text.lines text) → ∃ rs, openJournal text = .ok (.journal rs text)) ∧
    (HavePlainSums (Text.lines text) → OpensBy IsWritten text) ∧
    ∀ n cs, IsWritten n cs ↔ IsNumeral n cs ∧ cs.length = 8 ∧ '+' ∉ cs := by
  have hopens := opensBy_isNumeral text
  refine ⟨hopens, fun hgood => ?_, fun hplain => ?_, fun n cs => ⟨fun h => ?_, ?_⟩⟩
  · exact hopens.opened.mpr (hgood.imp fun _ _ _ => Tells.of_isWritten)
  · exact hopens.congr fun l hl e => hplain.tells_iff hl
  · exact ⟨h.isNumeral, h.length, Identifier.not_mem_of_valueOf? h.value rfl⟩
  · exact fun ⟨hnumeral, hlength, hplus⟩ => hnumeral.isWritten hlength hplus

theorem tells_plus (h : e.IsRecorded) : Tells IsNumeral ('+' :: e.bareLine) e := by
  have hvalue := Entry.valueOf?_checksumText (Entry.checksum_lt e.body)
  have hentry : Entry.ofBody? e.body = some e := by
    rw [Entry.ofBody?, Entry.parseRaw?_body, Option.bind_some, Entry.ofJson?_toJson h]
  exact Tells.intro (IsNumeral.plus (Entry.checksumText_ne_nil _) hvalue) hentry

theorem not_tells_plus (cs : List Char) : ¬Tells IsWritten ('+' :: cs) e := by
  intro h
  generalize hline : '+' :: cs = line at h
  obtain ⟨number, -⟩ := h
  rename_i sum body
  cases sum with
  | nil => cases number.length
  | cons c sum =>
    obtain rfl := List.head_eq_of_cons_eq hline
    exact Identifier.not_mem_of_valueOf? number.value rfl List.mem_cons_self

theorem lines_plus (e : Entry) : Text.lines ('+' :: e.line) = ['+' :: e.bareLine] := by
  obtain ⟨hfeed, hreturn⟩ := e.isLine_bareLine
  have hline : Text.IsLine ('+' :: e.bareLine) := by
    refine ⟨by simpa using hfeed, ?_⟩
    rwa [List.getLast?_cons_of_ne_nil e.bareLine_ne_nil]
  have hlines : Text.lines (['+' :: e.bareLine].flatMap (· ++ ['\n'])) = ['+' :: e.bareLine] :=
    Text.lines_flatMap (by simpa using hline)
  rwa [List.flatMap_singleton, List.cons_append, ← e.line_eq] at hlines

/-- A journal whose only line begins with a plus is opened, although no checksum is written so. -/
theorem openJournal_accepts_plus :
    let time : Time.Instant := ⟨19844, 36000, 250000000⟩
    let r : Record := ⟨⟨7⟩, .create, "Deal", ⟨9⟩, [], ⟨1⟩, time, time⟩
    let text := '+' :: (Entry.record r).line
    (∃ rs, openJournal text = .ok (.journal rs text)) ∧ ¬AreGood IsWritten (Text.lines text) := by
  intro time r text
  have htime : time.IsRecorded := ⟨by decide, by decide, by decide, fun h => absurd h (by decide)⟩
  have htells : Tells IsNumeral ('+' :: (Entry.record r).bareLine) (.record r) := tells_plus ⟨htime, htime⟩
  rw [(opensBy_isNumeral text).opened, lines_plus]
  constructor
  · exact areGood_concat.mpr ⟨areGood_nil, fun _ => .record r htells⟩
  · intro hgood
    cases hgood [] _ [] rfl (List.cons_ne_nil _ _) with
    | record r tells => exact not_tells_plus _ tells
    | amend id c time tells => exact not_tells_plus _ tells

end Audit

end Clientele
