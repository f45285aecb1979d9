import Clientele.Audit.Journal
import Clientele.Proofs.Audit.Record
import Clientele.Proofs.Json.Assembly
import Clientele.Proofs.Json.Printer
import Clientele.Proofs.Outcome
import Clientele.Proofs.Text.Lines

/-!
The lines of a journal are read back as the entries that they were written for, and the text of a
journal is replayed as its entries one after another.
-/
set_option autoImplicit false

namespace Clientele.Audit

theorem cutLine?_eq_some_iff {cs sum body : List Char} :
    cutLine? cs = some (sum, body) ↔ cs = sum ++ ' ' :: body ∧ ' ' ∉ sum := by
  constructor
  · intro h
    unfold cutLine? at h
    split at h
    · cases h
    · rename_i c rest hrest
      cases h
      obtain rfl : c = ' ' := by
        have hhead := List.head?_dropWhile_not (· ≠ ' ') cs
        rw [hrest] at hhead
        simpa using hhead
      refine ⟨?_, fun hmem => ?_⟩
      · rw [← hrest, List.takeWhile_append_dropWhile]
      · have hblank := List.all_eq_true.mp List.all_takeWhile ' ' hmem
        simp at hblank
  · rintro ⟨rfl, hblank⟩
    have hall : ∀ c ∈ sum, decide (c ≠ ' ') = true := by
      intro c hc
      simp only [decide_eq_true_eq]
      rintro rfl
      exact hblank hc
    unfold cutLine?
    rw [List.dropWhile_append_of_pos hall, List.takeWhile_append_of_pos hall]
    simp

namespace Entry

def IsRecorded : Entry → Prop
  | record r => r.IsRecorded
  | amend _ _ time => time.IsRecorded

theorem ofJson?_toJson {e : Entry} (h : e.IsRecorded) : ofJson? e.toJson = some e := by
  cases e with
  | record r =>
    have htagged : (record r).toJson.tagged? "kind" =
        some (.str "record", .obj [("record", r.toJson)]) := rfl
    have hslots : (Json.obj [("record", r.toJson)]).slots? ["record"] = some [some r.toJson] := rfl
    simp only [ofJson?, htagged, Json.text?, hslots, Record.ofJournal?_toJson h,
      Option.bind_eq_bind, Option.bind_some, if_true, Option.map_some]
  | amend id change time =>
    have htagged : (amend id change time).toJson.tagged? "kind" =
        some (.str "amend", .obj [("id", id.toJson), ("change", change.toJson),
          ("at", .str time.exact)]) := rfl
    have hslots : (Json.obj [("id", id.toJson), ("change", change.toJson),
        ("at", .str time.exact)]).slots? ["id", "change", "at"] =
          some [some id.toJson, some change.toJson, some (.str time.exact)] := rfl
    have hkind : ("amend" : String) ≠ "record" := by decide
    have htime : Time.loose? time.exact = some time := Time.Instant.IsRecorded.loose?_exact h
    simp only [ofJson?, htagged, Json.text?, hslots, Identifier.ofJson?_toJson,
      Change.ofJson?_toJson, htime, Option.bind_eq_bind, Option.bind_some, hkind, if_true, if_false,
      Option.pure_def]

theorem depth_change (c : Change) : c.toJson.depth = 1 := by
  obtain ⟨field, before, after⟩ := c
  cases before <;> cases after <;> rfl

theorem depthOfItems_changes (cs : List Change) : Json.depthOfItems (cs.map Change.toJson) ≤ 1 := by
  induction cs with
  | nil => simp [Json.depthOfItems]
  | cons c cs ih =>
    rw [List.map_cons, Json.depthOfItems, depth_change]
    omega

theorem depth_toJson_le (e : Entry) : e.toJson.depth ≤ 4 := by
  cases e with
  | record r =>
    have hchanges := depthOfItems_changes r.changes
    simp only [toJson, Record.toJson, Record.toFields, Identifier.toJson, Json.depth,
      Json.depthOfFields]
    omega
  | amend id change time =>
    simp only [toJson, Identifier.toJson, Json.depth, Json.depthOfFields, depth_change]
    omega

variable (P : Number → Prop)

theorem allNumbers_change (c : Change) : c.toJson.AllNumbers P := by
  obtain ⟨field, before, after⟩ := c
  cases before <;> cases after <;>
    simp [Change.toJson, Json.optionalField, Json.AllNumbers, Json.AllFieldNumbers]

theorem allItemNumbers_changes (cs : List Change) :
    Json.AllItemNumbers P (cs.map Change.toJson) := by
  induction cs with
  | nil => trivial
  | cons c cs ih => exact ⟨allNumbers_change P c, ih⟩

theorem allNumbers_toJson (e : Entry) : e.toJson.AllNumbers P := by
  cases e with
  | record r =>
    simp [toJson, Record.toJson, Record.toFields, Identifier.toJson, Json.AllNumbers,
      Json.AllFieldNumbers, allItemNumbers_changes P r.changes]
  | amend id change time =>
    simp [toJson, Identifier.toJson, Json.AllNumbers, Json.AllFieldNumbers, allNumbers_change]

theorem parseRaw?_body (e : Entry) : Json.parseRaw? (.ofList e.body) = some e.toJson :=
  Json.parseRaw?_compact (Nat.le_trans (depth_toJson_le e) (by decide)) (allNumbers_toJson _ e)

def bareLine (e : Entry) : List Char := checksumText (checksum e.body) ++ ' ' :: e.body

theorem line_eq (e : Entry) : e.line = e.bareLine ++ ['\n'] := by
  simp [line, bareLine]

theorem not_mem_checksumText {c : Char} (hc : Identifier.hexValue? c = none) (n : Nat) :
    c ∉ checksumText n := by
  intro h
  have hsome := Identifier.isSome_hexValue?_of_mem_digitsFrom h
  rw [hc] at hsome
  cases hsome

theorem valueOf?_checksumText {n : Nat} (h : n < 0x100000000) :
    Identifier.valueOf? (checksumText n) = some n := by
  have hmod : n % Nat.pow 16 8 = n := Nat.mod_eq_of_lt h
  rw [checksumText, Identifier.valueOf?_digitsFrom, hmod]

theorem checksumText_ne_nil (n : Nat) : checksumText n ≠ [] :=
  List.ne_nil_of_length_eq_add_one (Identifier.length_digitsFrom n 8)

theorem readChecksum?_checksumText {n : Nat} (h : n < 0x100000000) :
    readChecksum? (checksumText n) = some n := by
  have hplus : '+' ∉ checksumText n := not_mem_checksumText rfl n
  have hvalue := valueOf?_checksumText h
  unfold readChecksum?
  cases hcs : checksumText n with
  | nil => exact absurd hcs (checksumText_ne_nil n)
  | cons c cs =>
    rw [hcs] at hplus hvalue
    split
    case h_1 heq => simp [(List.cons.inj heq).1] at hplus
    case h_2 => simp [hvalue, h]

theorem cutLine?_bareLine (e : Entry) :
    cutLine? e.bareLine = some (checksumText (checksum e.body), e.body) :=
  cutLine?_eq_some_iff.mpr ⟨rfl, not_mem_checksumText rfl _⟩

theorem checksum_lt (cs : List Char) : checksum cs < 0x100000000 :=
  (crc32 _).toNat_lt

theorem decodeLine_bareLine {e : Entry} (h : e.IsRecorded) : decodeLine e.bareLine = .ok e := by
  simp only [decodeLine, cutLine?_bareLine, readChecksum?_checksumText (checksum_lt _),
    ne_eq, not_true, if_false, parseRaw?_body, Option.bind_some, ofJson?_toJson h, Option.elim_some]

theorem exists_body (e : Entry) : ∃ cs, e.body = '\x7b' :: (cs ++ ['\x7d']) := by
  cases e with
  | record r => exact ⟨_, rfl⟩
  | amend id change time => exact ⟨_, rfl⟩

theorem isLine_bareLine (e : Entry) : Text.IsLine e.bareLine := by
  constructor
  · intro h
    rcases List.mem_append.mp h with h | h
    · exact not_mem_checksumText rfl _ h
    · rcases List.mem_cons.mp h with h | h
      · cases h
      · exact Json.newline_not_mem_compactChars _ h
  · obtain ⟨cs, hbody⟩ := exists_body e
    rw [bareLine, hbody, ← List.cons_append, ← List.cons_append, ← List.append_assoc,
      List.getLast?_concat]
    decide

theorem bareLine_ne_nil (e : Entry) : e.bareLine ≠ [] := by
  simp [bareLine]

end Entry

def journalText (es : List Entry) : List Char := es.flatMap Entry.line

theorem lines_journalText (es : List Entry) :
    Text.lines (journalText es) = es.map Entry.bareLine := by
  have htext : journalText es = (es.map Entry.bareLine).flatMap (· ++ ['\n']) := by
    rw [journalText, List.flatMap_map]
    exact congrArg (es.flatMap ·) (funext Entry.line_eq)
  rw [htext]
  refine Text.lines_flatMap fun l hl => ?_
  obtain ⟨e, -, rfl⟩ := List.mem_map.mp hl
  exact e.isLine_bareLine

def replayEntries (rs : List Record) (es : List Entry) : Except LineFault (List Record) :=
  es.foldlM replayEntry rs

theorem replayLines_bareLine {es : List Entry} (h : ∀ e ∈ es, e.IsRecorded) {rs rs' : List Record}
    (hreplay : replayEntries rs es = .ok rs') (number : Nat) :
    replayLines rs number (es.map Entry.bareLine) = .ok rs' := by
  induction es generalizing rs number with
  | nil => cases hreplay; rfl
  | cons e es ih =>
    rw [replayEntries, List.foldlM_cons] at hreplay
    obtain ⟨rs₁, hstep, hrest⟩ := Except.bind_eq_ok_iff.mp hreplay
    have hline : replayLine rs e.bareLine = .ok rs₁ := by
      rw [replayLine, Entry.decodeLine_bareLine (h e (by simp))]
      exact hstep
    rw [List.map_cons, replayLines, if_neg (by simp [Entry.bareLine_ne_nil]), hline]
    exact ih (fun e he => h e (by simp [he])) hrest (number + 1)

theorem replayLines_append {rs rs' : List Record} {number : Nat} {ls : List (List Char)}
    (h : replayLines rs number ls = .ok rs') (more : List (List Char)) :
    replayLines rs number (ls ++ more) = replayLines rs' (number + ls.length) more := by
  induction ls generalizing rs number with
  | nil =>
    cases h
    rfl
  | cons l ls ih =>
    rw [replayLines] at h
    rw [List.cons_append, replayLines, List.length_cons, ← Nat.add_assoc, Nat.add_right_comm]
    split at h
    · rename_i hempty
      rw [if_pos hempty]
      exact ih h
    · rename_i hempty
      rw [if_neg hempty]
      split at h
      · cases h
      · exact ih h

/-- An entry whose line comes after those of a journal is replayed after its entries. -/
theorem replay_append_line {text : List Char} {rs rs' : List Record} {e : Entry}
    (hcomplete : Text.IsComplete text) (h : replay text = .ok rs) (he : e.IsRecorded)
    (hentry : replayEntry rs e = .ok rs') : replay (text ++ e.line) = .ok rs' := by
  have hline : Text.lines e.line = [e.bareLine] := by
    simpa [journalText] using lines_journalText [e]
  have hone : replayEntries rs [e] = .ok rs' := by
    rw [replayEntries, List.foldlM_cons, hentry]
    rfl
  rw [replay, Text.lines_append hcomplete, hline, replayLines_append h]
  exact @replayLines_bareLine [e] (by simpa using he) rs rs' hone _

theorem Entry.isComplete_line (e : Entry) : Text.IsComplete e.line := .inr ⟨_, e.line_eq⟩

theorem replay_journalText {es : List Entry} (h : ∀ e ∈ es, e.IsRecorded) {rs : List Record}
    (hreplay : replayEntries [] es = .ok rs) : replay (journalText es) = .ok rs := by
  rw [replay, lines_journalText]
  exact replayLines_bareLine h hreplay 1

end Clientele.Audit
