import Mathlib.Data.List.Perm.Subperm
import Clientele.Proofs.Audit.Document

/-!
Amendments of one record that overlap. Where records are documents an amendment is two calls on the
store: one reads the record, one writes it back with another change. The new changes that are there
in the end are all of them exactly if each amendment writes over the record that it has read.
-/
set_option autoImplicit false

namespace Clientele.Audit

/-- How far an amendment has come. -/
inductive Phase where
  | waiting
  | holding (r : Record)
  | returned (answer : Except Error Record)

def Phase.isReturned : Phase → Bool
  | .returned _ => true
  | _ => false

structure Caller where
  change : Change
  time : Time.Instant
  phase : Phase

structure Race where
  store : Store
  callers : List Caller

/-- The next call of an amendment on the store. -/
def Caller.advance (id : Identifier) (s : Store) (c : Caller) : Phase × Store :=
  match c.phase with
  | .waiting =>
    match Trail.documents.get s id with
    | .error e => (.returned (.error e), s)
    | .ok none => (.returned (.error (.notFound id)), s)
    | .ok (some r) => (.holding r, s)
  | .holding r =>
    let r := r.amend c.change c.time
    match s.update auditCollection id (Trail.amendment r) with
    | (some _, s) => (.returned (.ok r), s)
    | (none, s) => (.returned (.error (.notFound id)), s)
  | .returned answer => (.returned answer, s)

namespace Race

def start (s : Store) (calls : List (Change × Time.Instant)) : Race :=
  ⟨s, calls.map fun call => ⟨call.1, call.2, .waiting⟩⟩

def step (id : Identifier) (race : Race) (i : Nat) : Race :=
  match race.callers[i]? with
  | none => race
  | some c =>
    let (phase, s) := c.advance id race.store
    ⟨s, race.callers.set i { c with phase := phase }⟩

/-- A schedule names the amendment that goes on next. -/
def run (id : Identifier) (race : Race) (schedule : List Nat) : Race :=
  schedule.foldl (step id) race

def changes? (id : Identifier) (race : Race) : Option (List Change) :=
  match Trail.documents.get race.store id with
  | .ok (some r) => some r.changes
  | _ => none

/-- An amendment that nothing else overlaps with is what the trail does. -/
theorem run_alone (s : Store) (id : Identifier) (c : Change) (time : Time.Instant) :
    (start s [(c, time)]).run id [0, 0] =
      ⟨(Trail.documents.appendChange s id c time).2.2,
        [⟨c, time, .returned (Trail.documents.appendChange s id c time).1⟩]⟩ := by
  simp only [run, List.foldl_cons, List.foldl_nil, start, List.map_cons, List.map_nil, step,
    List.getElem?_cons_zero, Caller.advance, Trail.appendChange]
  cases Trail.documents.get s id with
  | error e => rfl
  | ok r? =>
    cases r? with
    | none => rfl
    | some r =>
      simp only [List.set_cons_zero, List.getElem?_cons_zero]
      rcases s.update auditCollection id (Trail.amendment (r.amend c time)) with ⟨doc?, s'⟩
      cases doc? <;> rfl

/-- The changes of the amendments that have returned. -/
def written (callers : List Caller) : List Change :=
  (callers.filter (·.phase.isReturned)).map (·.change)

/-- A record with some of the changes that have been written since, each once at most. -/
def Keeps (written : List Change) (earlier r : Record) : Prop :=
  ∃ kept time, r = { earlier with changes := earlier.changes ++ kept, updatedAt := time } ∧
    kept.Subperm written

theorem Keeps.mono {written written' : List Change} {earlier r : Record}
    (h : Keeps written earlier r) (hsub : written.Subperm written') : Keeps written' earlier r := by
  obtain ⟨kept, time, hr, hkept⟩ := h
  exact ⟨kept, time, hr, hkept.trans hsub⟩

theorem Keeps.amend {written : List Change} {earlier r : Record} (h : Keeps written earlier r)
    (c : Change) (time : Time.Instant) : Keeps (written ++ [c]) earlier (r.amend c time) := by
  obtain ⟨kept, _, rfl, hkept⟩ := h
  refine ⟨kept ++ [c], time, ?_, hkept.append (.refl [c])⟩
  rw [← List.append_assoc]
  rfl

theorem Keeps.length_le {written : List Change} {earlier r : Record} (h : Keeps written earlier r) :
    r.changes.length ≤ earlier.changes.length + written.length := by
  obtain ⟨kept, time, rfl, hkept⟩ := h
  rw [List.length_append]
  exact Nat.add_le_add_left hkept.length_le _

/-- What is stored and what is held are states of one record, and a record that is held but no
longer stored has missed a change. -/
structure Sound (id : Identifier) (earlier : Record) (race : Race) : Prop where
  times : ∀ c ∈ race.callers, c.time.IsRecorded
  stored : ∃ r, Trail.documents.get race.store id = .ok (some r) ∧ Keeps (written race.callers) earlier r
  held : ∀ c ∈ race.callers, ∀ r, c.phase = .holding r → Keeps (written race.callers) earlier r ∧
    (Trail.documents.get race.store id = .ok (some r) ∨
      r.changes.length < earlier.changes.length + (written race.callers).length)

def Current (id : Identifier) (race : Race) (i : Nat) : Prop :=
  ∀ c r, race.callers[i]? = some c → c.phase = .holding r →
    Trail.documents.get race.store id = .ok (some r)

/-- Nothing is written between the two calls of any amendment. -/
def Undisturbed (id : Identifier) (race : Race) : List Nat → Prop
  | [] => True
  | i :: schedule => race.Current id i ∧ (race.step id i).Undisturbed id schedule

def Complete (id : Identifier) (earlier : Record) (race : Race) : Prop :=
  ∃ r, Trail.documents.get race.store id = .ok (some r) ∧
    r.changes.length = earlier.changes.length + (written race.callers).length

variable {id : Identifier} {earlier : Record} {race : Race} {callers : List Caller} {i : Nat}
  {c : Caller} {phase : Phase}

theorem callers_split (hc : callers[i]? = some c) (d : Caller) :
    ∃ before after, callers = before ++ c :: after ∧ callers.set i d = before ++ d :: after := by
  obtain ⟨hlt, rfl⟩ := List.getElem?_eq_some_iff.mp hc
  refine ⟨callers.take i, callers.drop (i + 1), ?_, ?_⟩
  · rw [List.getElem_cons_drop, List.take_append_drop]
  · rw [List.set_eq_take_append_cons_drop, if_pos hlt]

theorem written_set_of_not (hc : callers[i]? = some c) (hbefore : c.phase.isReturned = false)
    (hafter : phase.isReturned = false) :
    written (callers.set i { c with phase := phase }) = written callers := by
  obtain ⟨before, after, hsplit, hset⟩ := callers_split hc { c with phase := phase }
  rw [hset, hsplit]
  simp [written, hbefore, hafter]

theorem written_set_perm (hc : callers[i]? = some c) (hbefore : c.phase.isReturned = false)
    (hafter : phase.isReturned = true) :
    (written (callers.set i { c with phase := phase })).Perm (written callers ++ [c.change]) := by
  obtain ⟨before, after, hsplit, hset⟩ := callers_split hc { c with phase := phase }
  rw [hset, hsplit]
  simp only [written, List.filter_append, List.map_append, List.filter_cons, hbefore, hafter,
    if_true, Bool.false_eq_true, if_false, List.map_cons, List.append_assoc]
  exact (List.perm_append_singleton _ _).symm.append_left _

/-- All that a step can do. -/
theorem Sound.step_cases (h : race.Sound id earlier) (i : Nat) :
    (race.step id i = race ∧ ∀ c, race.callers[i]? = some c → c.phase.isReturned) ∨
    (∃ c r, race.callers[i]? = some c ∧ c.phase = .waiting ∧
      Trail.documents.get race.store id = .ok (some r) ∧
      race.step id i = ⟨race.store, race.callers.set i { c with phase := .holding r }⟩) ∨
    ∃ c r s, race.callers[i]? = some c ∧ c.phase = .holding r ∧
      Trail.documents.get s id = .ok (some (r.amend c.change c.time)) ∧
      race.step id i =
        ⟨s, race.callers.set i
          { c with phase := .returned (.ok (r.amend c.change c.time)) }⟩ := by
  cases hc : race.callers[i]? with
  | none =>
    refine .inl ⟨by rw [step, hc], fun c h => ?_⟩
    cases h
  | some c =>
    obtain ⟨stored, hstored, kept, time, rfl, -⟩ := h.stored
    cases hphase : c.phase with
    | waiting =>
      refine .inr (.inl ⟨c, _, rfl, hphase, hstored, ?_⟩)
      simp only [step, hc, Caller.advance, hphase, hstored]
    | holding r =>
      have hmem := List.mem_of_getElem? hc
      obtain ⟨⟨kept', time', rfl, -⟩, -⟩ := h.held c hmem r hphase
      obtain ⟨doc, hdoc, hread⟩ := Trail.get_documents_eq_some.mp hstored
      -- The changes that are held go over the document as it is now, whatever it says.
      have hwritten := Record.ofDocument?_patched_changes hread
        (earlier.changes ++ kept' ++ [c.change]) (h.times c hmem)
      obtain ⟨s, hupdate⟩ := Store.update_of_get? hdoc (Trail.amendment
        ({ earlier with changes := earlier.changes ++ kept', updatedAt := time' }.amend
          c.change c.time))
      refine .inr (.inr ⟨c, _, s, rfl, hphase, ?_, ?_⟩)
      · exact Trail.get_documents_eq_some.mpr ⟨_, Store.get?_of_update hupdate, hwritten⟩
      · simp only [step, hc, Caller.advance, hphase, hupdate]
    | returned answer =>
      have hsame : race.callers.set i { c with phase := .returned answer } = race.callers := by
        rw [← hphase]
        obtain ⟨hlt, rfl⟩ := List.getElem?_eq_some_iff.mp hc
        exact List.set_getElem_self hlt
      refine .inl ⟨by simp only [step, hc, Caller.advance, hphase, hsame], ?_⟩
      rintro d ⟨⟩
      rw [hphase]
      rfl

theorem Sound.step (h : race.Sound id earlier) (i : Nat) : (race.step id i).Sound id earlier := by
  obtain ⟨stored, hstored, hkeeps⟩ := h.stored
  rcases h.step_cases i with ⟨hstep, -⟩ | ⟨c, r, hc, hphase, hget, hstep⟩ |
    ⟨c, r, s, hc, hphase, hget, hstep⟩
  · rwa [hstep]
  · cases hstored.symm.trans hget
    have hwritten : written (race.callers.set i { c with phase := .holding stored }) =
        written race.callers := written_set_of_not hc (by rw [hphase]; rfl) rfl
    rw [hstep]
    refine ⟨fun d hd => ?_, ⟨stored, hstored, by rwa [hwritten]⟩, fun d hd q hq => ?_⟩
    · rcases List.mem_or_eq_of_mem_set hd with hd | rfl
      · exact h.times d hd
      · exact h.times c (List.mem_of_getElem? hc)
    · rw [hwritten]
      rcases List.mem_or_eq_of_mem_set hd with hd | rfl
      · exact h.held d hd q hq
      · cases hq
        exact ⟨hkeeps, .inl hstored⟩
  · have hwritten : (written (race.callers.set i
        { c with phase := .returned (.ok (r.amend c.change c.time)) })).Perm
          (written race.callers ++ [c.change]) := written_set_perm hc (by rw [hphase]; rfl) rfl
    have hsub : (written race.callers).Subperm (written (race.callers.set i
        { c with phase := .returned (.ok (r.amend c.change c.time)) })) :=
      (List.sublist_append_left _ _).subperm.trans hwritten.symm.subperm
    have hlength := hwritten.length_eq
    rw [List.length_append, List.length_singleton] at hlength
    rw [hstep]
    refine ⟨fun d hd => ?_, ⟨_, hget, ?_⟩, fun d hd q hq => ?_⟩
    · rcases List.mem_or_eq_of_mem_set hd with hd | rfl
      · exact h.times d hd
      · exact h.times c (List.mem_of_getElem? hc)
    · exact ((h.held c (List.mem_of_getElem? hc) r hphase).1.amend c.change c.time).mono
        hwritten.symm.subperm
    · rcases List.mem_or_eq_of_mem_set hd with hd | rfl
      · obtain ⟨hq, hfresh⟩ := h.held d hd q hq
        refine ⟨hq.mono hsub, .inr ?_⟩
        simp only [hlength]
        rcases hfresh with hfresh | hfresh
        · have hle := hq.length_le
          omega
        · omega
      · cases hq

/-- A step keeps all changes if they were all there and it writes over what it has read. -/
theorem Sound.complete_step (h : race.Sound id earlier) (i : Nat) :
    (race.step id i).Complete id earlier ↔ race.Complete id earlier ∧ race.Current id i := by
  rcases h.step_cases i with ⟨hstep, hreturned⟩ | ⟨c, r, hc, hphase, hget, hstep⟩ |
    ⟨c, r, s, hc, hphase, hget, hstep⟩
  · have hcurrent : race.Current id i := by
      intro c r hc hphase
      have h := hreturned c hc
      rw [hphase] at h
      cases h
    rw [hstep, and_iff_left hcurrent]
  · have hcurrent : race.Current id i := by
      intro d q hd hq
      cases hc.symm.trans hd
      cases hphase.symm.trans hq
    have hwritten : written (race.callers.set i { c with phase := .holding r }) =
        written race.callers := written_set_of_not hc (by rw [hphase]; rfl) rfl
    rw [hstep, and_iff_left hcurrent, Complete, hwritten, Complete]
  · have hlength : (written (race.callers.set i
        { c with phase := .returned (.ok (r.amend c.change c.time)) })).length =
          (written race.callers ++ [c.change]).length :=
      (written_set_perm hc (by rw [hphase]; rfl) rfl).length_eq
    rw [List.length_append, List.length_singleton] at hlength
    have hamend : (r.amend c.change c.time).changes.length = r.changes.length + 1 :=
      List.length_append
    rw [hstep]
    constructor
    · rintro ⟨q, hq, hcomplete⟩
      cases hget.symm.trans hq
      simp only [hlength, hamend] at hcomplete
      rcases (h.held c (List.mem_of_getElem? hc) r hphase).2 with hstored | hmissed
      · refine ⟨⟨r, hstored, by omega⟩, ?_⟩
        intro d q hd hq
        cases hc.symm.trans hd
        cases hphase.symm.trans hq
        exact hstored
      · omega
    · rintro ⟨⟨q, hq, hcomplete⟩, hcurrent⟩
      cases hq.symm.trans (hcurrent c r hc hphase)
      exact ⟨_, hget, by simp only [hlength, hamend]; omega⟩

theorem Sound.run (h : race.Sound id earlier) (schedule : List Nat) :
    (race.run id schedule).Sound id earlier := by
  induction schedule generalizing race with
  | nil => exact h
  | cons i schedule ih => exact ih (h.step i)

theorem Sound.complete_run (h : race.Sound id earlier) (schedule : List Nat) :
    (race.run id schedule).Complete id earlier ↔
      race.Complete id earlier ∧ race.Undisturbed id schedule := by
  induction schedule generalizing race with
  | nil => exact (and_iff_left trivial).symm
  | cons i schedule ih =>
    have hrest := ih (h.step i)
    rw [h.complete_step i, and_assoc] at hrest
    exact hrest

theorem changes_step (id : Identifier) (race : Race) (i : Nat) :
    (race.step id i).callers.map (·.change) = race.callers.map (·.change) := by
  unfold step
  split
  · rfl
  · rename_i c hc
    obtain ⟨before, after, hsplit, hset⟩ :=
      callers_split hc { c with phase := (c.advance id race.store).1 }
    simp only [hset]
    rw [hsplit, List.map_append, List.map_append, List.map_cons, List.map_cons]

theorem changes_run (id : Identifier) (race : Race) (schedule : List Nat) :
    (race.run id schedule).callers.map (·.change) = race.callers.map (·.change) := by
  induction schedule generalizing race with
  | nil => rfl
  | cons i schedule ih => exact (ih (race.step id i)).trans (changes_step id race i)

variable {s : Store} {calls : List (Change × Time.Instant)}

theorem sound_start (hstored : Trail.documents.get s id = .ok (some earlier))
    (htimes : ∀ call ∈ calls, call.2.IsRecorded) : (start s calls).Sound id earlier where
  times c hc := by
    obtain ⟨call, hcall, rfl⟩ := List.mem_map.mp hc
    exact htimes call hcall
  stored := ⟨earlier, hstored, [], earlier.updatedAt, by rw [List.append_nil], List.nil_subperm⟩
  held c hc r hphase := by
    obtain ⟨call, -, rfl⟩ := List.mem_map.mp hc
    cases hphase

theorem complete_start (hstored : Trail.documents.get s id = .ok (some earlier)) :
    (start s calls).Complete id earlier := by
  have hnone : written (start s calls).callers = [] := by
    rw [written, List.filter_eq_nil_iff.mpr, List.map_nil]
    intro c hc
    obtain ⟨call, -, rfl⟩ := List.mem_map.mp hc
    exact Bool.false_ne_true
  exact ⟨earlier, hstored, by rw [hnone]; rfl⟩

/-- When all amendments of a record have returned, its changes are the earlier ones and some of the
new ones, each once at most. They are all of the new ones exactly if nothing was written between the
two calls of any amendment. -/
theorem changes_kept_iff (hstored : Trail.documents.get s id = .ok (some earlier))
    (htimes : ∀ call ∈ calls, call.2.IsRecorded) {schedule : List Nat}
    (hdone : ∀ c ∈ ((start s calls).run id schedule).callers, c.phase.isReturned) :
    ∃ kept, ((start s calls).run id schedule).changes? id = some (earlier.changes ++ kept) ∧
      kept.Subperm (calls.map (·.1)) ∧
      (kept.Perm (calls.map (·.1)) ↔ (start s calls).Undisturbed id schedule) := by
  have hstart := sound_start hstored htimes
  have hwritten : written ((start s calls).run id schedule).callers = calls.map (·.1) := by
    rw [written, List.filter_eq_self.mpr hdone, changes_run, start, List.map_map]
    rfl
  have hcomplete := hstart.complete_run schedule
  rw [and_iff_right (complete_start hstored)] at hcomplete
  obtain ⟨_, hget, kept, time, rfl, hkept⟩ := (hstart.run schedule).stored
  rw [hwritten] at hkept
  refine ⟨kept, by rw [changes?, hget], hkept, ?_⟩
  rw [← hcomplete, Complete, hwritten]
  constructor
  · intro hperm
    exact ⟨_, hget, by rw [List.length_append, hperm.length_eq]⟩
  · rintro ⟨q, hq, hlength⟩
    cases hget.symm.trans hq
    rw [List.length_append, Nat.add_left_cancel_iff] at hlength
    exact hkept.perm_of_length_le (Nat.le_of_eq hlength.symm)

theorem changes_kept_iff_serial :
    let time : Time.Instant := ⟨19844, 36000, 250000000⟩
    let earlier : Record :=
      ⟨⟨1⟩, .create, "Deal", ⟨2⟩, [⟨"title", none, "Renewal"⟩], ⟨99⟩, time, time⟩
    let s : Store := (Store.empty.insert auditCollection (.obj earlier.toDocument)).2
    let calls : List (Change × Time.Instant) :=
      [(⟨"value", none, "1"⟩, time), (⟨"stage", none, "WON"⟩, time)]
    Trail.documents.get s ⟨1⟩ = .ok (some earlier) ∧ (∀ call ∈ calls, call.2.IsRecorded) ∧
      (∀ c ∈ ((start s calls).run ⟨1⟩ [0, 0, 1, 1]).callers, c.phase.isReturned) ∧
      (start s calls).Undisturbed ⟨1⟩ [0, 0, 1, 1] := by
  intro time earlier s calls
  have htime : time.IsRecorded := ⟨by decide, by decide, by decide, fun h => absurd h (by decide)⟩
  have hinsert : (Store.empty.insert auditCollection (.obj earlier.toDocument)).1 = .ok () := by
    rw [Store.insert, Store.Collection.insert_obj earlier.documentId?_toDocument rfl]
  have hstored : Trail.documents.get s earlier.id = .ok (some earlier) :=
    Trail.get_documents_of_insert ⟨htime, htime⟩ (Prod.ext hinsert rfl)
  have htimes : ∀ call ∈ calls, call.2.IsRecorded := by
    simp only [calls, List.forall_mem_cons]
    exact ⟨htime, htime, fun _ hnil => absurd hnil List.not_mem_nil⟩
  have hdone : ∀ c ∈ ((start s calls).run ⟨1⟩ [0, 0, 1, 1]).callers, c.phase.isReturned := by
    decide +kernel
  obtain ⟨kept, hkept, -, hiff⟩ := changes_kept_iff hstored htimes hdone
  have hchanges : ((start s calls).run ⟨1⟩ [0, 0, 1, 1]).changes? ⟨1⟩ =
      some (earlier.changes ++ calls.map (·.1)) := by decide +kernel
  obtain rfl := List.append_cancel_left (Option.some.inj (hkept.symm.trans hchanges))
  exact ⟨hstored, htimes, hdone, hiff.mp (.refl _)⟩

/-- The same two amendments when both read the record before either writes it: both return, and the
value is lost. -/
theorem change_lost :
    let time : Time.Instant := ⟨19844, 36000, 250000000⟩
    let earlier : Record :=
      ⟨⟨1⟩, .create, "Deal", ⟨2⟩, [⟨"title", none, "Renewal"⟩], ⟨99⟩, time, time⟩
    let s : Store := (Store.empty.insert auditCollection (.obj earlier.toDocument)).2
    let calls : List (Change × Time.Instant) :=
      [(⟨"value", none, "1"⟩, time), (⟨"stage", none, "WON"⟩, time)]
    let race := (start s calls).run ⟨1⟩ [0, 1, 0, 1]
    (∀ c ∈ race.callers, c.phase.isReturned) ∧
      race.changes? ⟨1⟩ = some (earlier.changes ++ [⟨"stage", none, "WON"⟩]) ∧
      ¬∃ kept, race.changes? ⟨1⟩ = some (earlier.changes ++ kept) ∧
        kept.Perm (calls.map (·.1)) := by
  intro time earlier s calls race
  have hchanges : race.changes? ⟨1⟩ = some (earlier.changes ++ [⟨"stage", none, "WON"⟩]) := by
    decide +kernel
  refine ⟨by decide +kernel, hchanges, ?_⟩
  rintro ⟨kept, hkept, hperm⟩
  obtain rfl := List.append_cancel_left (Option.some.inj (hkept.symm.trans hchanges))
  exact absurd hperm.length_eq (by decide)

end Race

end Clientele.Audit
