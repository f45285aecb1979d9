import Clientele.Audit.Trail
import Clientele.Proofs.Audit.Journal

/-!
A journal loses nothing. Every call that succeeds writes one line, a call that does not writes none,
and the first lines of the journal, opened again, give the trail as it was after so many successes.
-/
set_option autoImplicit false

namespace Clientele.Audit

inductive Call where
  | insert (r : Record)
  | appendChange (id : Identifier) (change : Change) (time : Time.Instant)

def Call.entry : Call → Entry
  | insert r => .record r
  | appendChange id change time => .amend id change time

def Call.run (t : Trail) (s : Store) : Call → Except Error Unit × Trail × Store
  | insert r => t.insert s r
  | appendChange id change time =>
    match t.appendChange s id change time with
    | (answer, t, s) => (answer.map fun _ => (), t, s)

def runAll (t : Trail) (s : Store) : List Call → Trail × Store
  | [] => (t, s)
  | c :: cs =>
    match c.run t s with
    | (_, t, s) => runAll t s cs

def successes (t : Trail) (s : Store) : List Call → List Trail
  | [] => []
  | c :: cs =>
    match c.run t s with
    | (.ok (), t, s) => t :: successes t s cs
    | (.error _, t, s) => successes t s cs

/-- All that a call on a journal can do: it replays its entry and writes its line, or it finds no
record and does nothing. -/
theorem Call.run_journal (rs : List Record) (text : List Char) (s : Store) (c : Call) :
    (∃ rs', replayEntry rs c.entry = .ok rs' ∧
      c.run (.journal rs text) s = (.ok (), .journal rs' (text ++ c.entry.line), s)) ∨
    (∃ id, c.run (.journal rs text) s = (.error (.notFound id), .journal rs text, s)) := by
  cases c with
  | insert r => exact .inl ⟨rs ++ [r], rfl, rfl⟩
  | appendChange id change time =>
    cases hr : lookUp rs id with
    | none => exact .inr ⟨id, by simp [run, Trail.appendChange, hr, Except.map]⟩
    | some r =>
      cases hrs : amendIn rs id change time with
      | none => exact .inr ⟨id, by simp [run, Trail.appendChange, hr, hrs, Except.map]⟩
      | some rs' =>
        refine .inl ⟨rs', by simp [entry, replayEntry, hrs], ?_⟩
        simp [run, Trail.appendChange, hr, hrs, entry, Except.map]

theorem replayEntries_cons {rs rs₁ rs₂ : List Record} {e : Entry} {es : List Entry}
    (he : replayEntry rs e = .ok rs₁) (hes : replayEntries rs₁ es = .ok rs₂) :
    replayEntries rs (e :: es) = .ok rs₂ := by
  rw [replayEntries, List.foldlM_cons, he]
  exact hes

/-- A run from a journal writes the entries of the calls that succeed, and after so many of them the
trail holds what these entries replay to. -/
theorem exists_entries (rs : List Record) (text : List Char) (s : Store) (calls : List Call) :
    ∃ es : List Entry, (∀ e ∈ es, ∃ c ∈ calls, c.entry = e) ∧
      es.length = (successes (.journal rs text) s calls).length ∧
      (∃ rs', runAll (.journal rs text) s calls = (.journal rs' (text ++ journalText es), s)) ∧
      ∀ j ≤ es.length, ∃ rs', replayEntries rs (es.take j) = .ok rs' ∧
        (Trail.journal rs text :: successes (.journal rs text) s calls)[j]? =
          some (.journal rs' (text ++ journalText (es.take j))) := by
  induction calls generalizing rs text with
  | nil =>
    refine ⟨[], by simp, rfl, ⟨rs, by simp [runAll, journalText]⟩, fun j hj => ⟨rs, ?_⟩⟩
    obtain rfl : j = 0 := Nat.le_zero.mp hj
    exact ⟨rfl, by simp [journalText]⟩
  | cons c calls ih =>
    rcases c.run_journal rs text s with ⟨rs₁, hentry, hrun⟩ | ⟨id, hrun⟩
    · obtain ⟨es, hmem, hlength, ⟨rs', hlast⟩, htake⟩ := ih rs₁ (text ++ c.entry.line)
      refine ⟨c.entry :: es, ?_, ?_, ⟨rs', ?_⟩, ?_⟩
      · intro e he
        rcases List.mem_cons.mp he with rfl | he
        · exact ⟨c, by simp, rfl⟩
        · obtain ⟨d, hd, hde⟩ := hmem e he
          exact ⟨d, by simp [hd], hde⟩
      · simp [successes, hrun, hlength]
      · simp [runAll, hrun, hlast, journalText]
      · intro j hj
        cases j with
        | zero => exact ⟨rs, rfl, by simp [journalText]⟩
        | succ j =>
          obtain ⟨rs₂, hreplay, hlive⟩ := htake j (by simpa using hj)
          refine ⟨rs₂, replayEntries_cons hentry hreplay, ?_⟩
          simpa [successes, hrun, journalText] using hlive
    · obtain ⟨es, hmem, hlength, hlast, htake⟩ := ih rs text
      refine ⟨es, ?_, ?_, ?_, ?_⟩
      · intro e he
        obtain ⟨d, hd, hde⟩ := hmem e he
        exact ⟨d, by simp [hd], hde⟩
      · simpa [successes, hrun] using hlength
      · simpa [runAll, hrun] using hlast
      · simpa [successes, hrun] using htake

theorem openJournal_journalText {es : List Entry} (h : ∀ e ∈ es, e.IsRecorded) {rs : List Record}
    (hreplay : replayEntries [] es = .ok rs) :
    openJournal (journalText es) = .ok (.journal rs (journalText es)) := by
  rw [openJournal, readJournal, replay_journalText h hreplay]
  rfl

theorem flatMap_take_lines (es : List Entry) (j : Nat) :
    ((Text.lines (journalText es)).take j).flatMap (· ++ ['\n']) = journalText (es.take j) := by
  rw [lines_journalText, ← List.map_take, List.flatMap_map, journalText]
  exact congrArg ((es.take j).flatMap ·) (funext fun e => e.line_eq.symm)

/-- Of calls on an empty journal, those that succeed leave one line each, the others nothing; and
the first lines of the journal are opened as the trail that was there after so many successes. -/
theorem openJournal_take (s : Store) {calls : List Call} (h : ∀ c ∈ calls, c.entry.IsRecorded) :
    let start : Trail := .journal [] []
    let live := successes start s calls
    openJournal [] = .ok start ∧
      (∃ rs text, (runAll start s calls).1 = .journal rs text ∧
        (Text.lines text).length = live.length ∧
        ∀ j ≤ live.length, ∃ trail, (start :: live)[j]? = some trail ∧
          openJournal (((Text.lines text).take j).flatMap (· ++ ['\n'])) = .ok trail) ∧
      ∀ before c after, calls = before ++ c :: after → ∀ e t' s',
        c.run (runAll start s before).1 (runAll start s before).2 = (.error e, t', s') →
        (∃ id, e = .notFound id) ∧ (t', s') = runAll start s before := by
  intro start live
  refine ⟨rfl, ?_, ?_⟩
  · obtain ⟨es, hmem, hlength, ⟨rs, hlast⟩, htake⟩ := exists_entries [] [] s calls
    have hes : ∀ e ∈ es, e.IsRecorded := by
      intro e he
      obtain ⟨c, hc, rfl⟩ := hmem e he
      exact h c hc
    refine ⟨rs, journalText es, by rw [hlast]; rfl, ?_, fun j hj => ?_⟩
    · rw [lines_journalText, List.length_map, hlength]
    · obtain ⟨rs', hreplay, hlive⟩ := htake j (hlength ▸ hj)
      refine ⟨_, hlive, ?_⟩
      rw [flatMap_take_lines, List.nil_append]
      exact openJournal_journalText (fun e he => hes e (List.mem_of_mem_take he)) hreplay
  · rintro before c after - e t' s' hrun
    obtain ⟨es, -, -, ⟨rs, hlast⟩, -⟩ := exists_entries [] [] s before
    rw [hlast] at hrun ⊢
    rcases c.run_journal rs ([] ++ journalText es) s with ⟨rs', -, hok⟩ | ⟨id, herror⟩
    · cases hrun.symm.trans hok
    · cases hrun.symm.trans herror
      exact ⟨⟨id, rfl⟩, rfl⟩

theorem openJournal_take_amended :
    let time : Time.Instant := ⟨19844, 36000, 250000000⟩
    let r : Record := ⟨⟨7⟩, .create, "Deal", ⟨9⟩, [⟨"name", none, some "a\nb"⟩], ⟨1⟩, time, time⟩
    let change : Change := ⟨"stage", some "NEW", some "WON"⟩
    let calls : List Call := [.insert r, .appendChange ⟨7⟩ change time, .appendChange ⟨8⟩ change time]
    (∀ c ∈ calls, c.entry.IsRecorded) ∧
      ∃ text, (runAll (.journal [] []) .empty calls).1 = .journal [r.amend change time] text ∧
        (Text.lines text).length = 2 ∧
        ∃ trail, openJournal (((Text.lines text).take 1).flatMap (· ++ ['\n'])) = .ok trail ∧
          trail.get .empty ⟨7⟩ = .ok (some r) := by
  intro time r change calls
  have htime : time.IsRecorded := ⟨by decide, by decide, by decide, fun h => absurd h (by decide)⟩
  have hcalls : ∀ c ∈ calls, c.entry.IsRecorded := by
    simp only [calls, List.forall_mem_cons]
    exact ⟨⟨htime, htime⟩, htime, htime, by simp⟩
  obtain ⟨-, ⟨rs, text, hrun, hlines, hopen⟩, -⟩ := openJournal_take .empty hcalls
  obtain ⟨trail, hlive, hopened⟩ := hopen 1 (by decide)
  have hrecords : rs = [r.amend change time] := (Trail.journal.inj hrun).1.symm
  subst hrecords
  have hget : trail.get .empty ⟨7⟩ = .ok (some r) := by
    rw [← Option.some.inj hlive]
    rfl
  exact ⟨hcalls, text, hrun, hlines, trail, hopened, hget⟩

end Clientele.Audit
