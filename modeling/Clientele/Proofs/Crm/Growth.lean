import Clientele.Proofs.Audit.Document
import Clientele.Proofs.Crm.Effect

/-!
Records that are documents of the store only grow. No call on an entity, no amendment and no record
takes one away, moves it or changes what it says; changes are added to it at most, and new records
come behind it.
-/
set_option autoImplicit false

namespace Clientele

namespace Audit

/-- The same record, with changes that were added later. -/
structure Record.Continues (r r' : Record) : Prop where
  id : r'.id = r.id
  action : r'.action = r.action
  targetEntity : r'.targetEntity = r.targetEntity
  targetId : r'.targetId = r.targetId
  userId : r'.userId = r.userId
  createdAt : r'.createdAt = r.createdAt
  changes : r.changes <+: r'.changes

theorem Record.Continues.refl (r : Record) : r.Continues r :=
  ⟨rfl, rfl, rfl, rfl, rfl, rfl, List.prefix_rfl⟩

theorem Record.Continues.trans {r r' r'' : Record} (h : r.Continues r') (h' : r'.Continues r'') :
    r.Continues r'' :=
  ⟨h'.id.trans h.id, h'.action.trans h.action, h'.targetEntity.trans h.targetEntity,
    h'.targetId.trans h.targetId, h'.userId.trans h.userId, h'.createdAt.trans h.createdAt,
    h.changes.trans h'.changes⟩

theorem Record.continues_amend (r : Record) (c : Change) (time : Time.Instant) :
    r.Continues (r.amend c time) :=
  ⟨rfl, rfl, rfl, rfl, rfl, rfl, List.prefix_append _ _⟩

/-- Every record stays in its place, so that new ones can only come behind. -/
def Grows (rs rs' : List Record) : Prop :=
  ∀ (i : Nat) (r : Record), rs[i]? = some r → ∃ r', rs'[i]? = some r' ∧ r.Continues r'

theorem Grows.refl (rs : List Record) : Grows rs rs := fun _ r hr => ⟨r, hr, .refl r⟩

theorem Grows.trans {rs rs' rs'' : List Record} (h : Grows rs rs') (h' : Grows rs' rs'') :
    Grows rs rs'' := by
  intro i r hr
  obtain ⟨r', hr', hc⟩ := h i r hr
  obtain ⟨r'', hr'', hc'⟩ := h' i r' hr'
  exact ⟨r'', hr'', hc.trans hc'⟩

theorem grows_append (rs rs' : List Record) : Grows rs (rs ++ rs') := by
  intro i r hr
  obtain ⟨hi, -⟩ := List.getElem?_eq_some_iff.mp hr
  exact ⟨r, by rw [List.getElem?_append_left hi, hr], .refl r⟩

theorem grows_set {rs : List Record} {i : Nat} {r r' : Record} (hi : rs[i]? = some r)
    (h : r.Continues r') : Grows rs (rs.set i r') := by
  intro j q hq
  rw [List.getElem?_set]
  split
  · rename_i hij
    subst hij
    cases hi.symm.trans hq
    obtain ⟨hlt, -⟩ := List.getElem?_eq_some_iff.mp hi
    exact ⟨r', if_pos hlt, h⟩
  · exact ⟨q, hq, .refl q⟩

end Audit

namespace Crm

open Audit (Grows)

namespace Book

structure Advances (b b' : Book) : Prop where
  trail : b'.trail = .documents
  times : b'.supply.time = b.supply.time
  grows : ∀ rs, b.records = .ok rs → ∃ rs', b'.records = .ok rs' ∧ Grows rs rs'

variable {b b' b'' : Book}

theorem Advances.refl (ht : b.trail = .documents) : b.Advances b :=
  ⟨ht, rfl, fun rs hrs => ⟨rs, hrs, .refl rs⟩⟩

theorem Advances.trans (h : b.Advances b') (h' : b'.Advances b'') : b.Advances b'' where
  trail := h'.trail
  times := h'.times.trans h.times
  grows := by
    intro rs hrs
    obtain ⟨rs', hrs', hgrows⟩ := h.grows rs hrs
    obtain ⟨rs'', hrs'', hgrows'⟩ := h'.grows rs' hrs'
    exact ⟨rs'', hrs'', hgrows.trans hgrows'⟩

theorem Advances.keepsTime (h : b.Advances b') (ht : b.trail = .documents)
    (hclock : b.KeepsTime) : b'.KeepsTime := by
  intro _ n
  rw [h.times]
  exact hclock ht n

theorem advances_of_keeps (h : b.Keeps b') (ht : b.trail = .documents) : b.Advances b' where
  trail := h.trail.trans ht
  times := h.times
  grows rs hrs := ⟨rs, h.records.trans hrs, .refl rs⟩

theorem advances_record (ht : b.trail = .documents) (hclock : b.KeepsTime) (targetEntity : String)
    (targetId : Identifier) (changes : List Audit.Change) (userId : Identifier)
    (action : Audit.Action) :
    b.Advances (b.record targetEntity targetId changes userId action).2 := by
  have hprecedes := b.precedes_record targetEntity targetId userId changes action
  refine ⟨hprecedes.documents.mpr ht, hprecedes.times, fun rs hrs => ?_⟩
  rcases hinsert : b.trail.insert b.store
    (b.nextRecord targetEntity targetId changes userId action) with ⟨answer, trail, store⟩
  obtain ⟨log, hrecord⟩ := record_eq hinsert
  rw [hrecord]
  cases answer with
  | ok u =>
    exact ⟨_, Audit.Trail.records_insert (fun ht => ⟨hclock ht _, hclock ht _⟩) hinsert hrs,
      Audit.grows_append _ _⟩
  | error e => exact ⟨rs, (Audit.Trail.records_insert_of_error hinsert).trans hrs, .refl rs⟩

def countedAmendment (c : Telemetry.Counters) :
    Except Audit.Error Audit.Record → Telemetry.Counters
  | .ok _ => { c with auditAmendments := c.auditAmendments + 1 }
  | .error _ => c

theorem amend_eq {id : Identifier} {change : Audit.Change}
    {answer : Except Audit.Error Audit.Record} {trail : Audit.Trail} {store : Store}
    (h : b.trail.appendChange b.store id change
      (b.supply.time b.supply.timesDrawn).toMillisPrecision = (answer, trail, store)) :
    ∃ log, b.amend id change = (answer, ⟨store, trail, countedAmendment b.counters answer, log,
      { b.supply with timesDrawn := b.supply.timesDrawn + 1 }⟩) := by
  simp only [amend, now, h]
  cases answer with
  | ok r => exact ⟨_, rfl⟩
  | error e => exact ⟨_, rfl⟩

theorem advances_amend (ht : b.trail = .documents) (hclock : b.KeepsTime) (id : Identifier)
    (change : Audit.Change) : b.Advances (b.amend id change).2 := by
  rcases happend : b.trail.appendChange b.store id change
    (b.supply.time b.supply.timesDrawn).toMillisPrecision with ⟨answer, trail, store⟩
  obtain ⟨log, hamend⟩ := amend_eq happend
  rw [ht] at happend
  have htrail := Audit.Trail.trail_appendChange_documents b.store id change
    (b.supply.time b.supply.timesDrawn).toMillisPrecision
  rw [happend] at htrail
  rw [hamend]
  refine ⟨htrail, rfl, fun rs hrs => ?_⟩
  rw [records, ht] at hrs
  rcases Audit.Trail.appendChange_documents hrs id change (hclock ht b.supply.timesDrawn) with
    ⟨i, r, doc, s', -, hr, -, hrun, hread⟩ | ⟨-, hrun⟩
  · cases happend.symm.trans hrun
    exact ⟨_, hread, Audit.grows_set hr (r.continues_amend change _)⟩
  · cases happend.symm.trans hrun
    exact ⟨rs, hrs, .refl rs⟩

end Book

/-- What is done to a book: a call on an entity, an amendment of a record, or a record on its own.
-/
inductive Deed where
  | call (c : Call)
  | amend (id : Identifier) (change : Audit.Change)
  | record (targetEntity : String) (targetId : Identifier) (changes : List Audit.Change)
    (userId : Identifier) (action : Audit.Action)

def Deed.run (settings : Settings) (b : Book) : Deed → Book
  | call c => (c.run settings b).2
  | amend id change => (b.amend id change).2
  | record targetEntity targetId changes userId action =>
    (b.record targetEntity targetId changes userId action).2

namespace Book

def afterDeeds (settings : Settings) (b : Book) (deeds : List Deed) : Book :=
  deeds.foldl (Deed.run settings) b

/-- What goes on holding when a step of certain steps is taken, a record is written or one is
amended. -/
structure IsInvariant (settings : Settings) (steps : Step → Prop) (P : Book → Prop) : Prop where
  step : ∀ {b : Book} {s : Step}, steps s → P b → P (s.run settings b).2
  record : ∀ {b : Book} (targetEntity : String) (targetId : Identifier)
    (changes : List Audit.Change) (userId : Identifier) (action : Audit.Action),
    P b → P (b.record targetEntity targetId changes userId action).2
  amend : ∀ {b : Book} (id : Identifier) (change : Audit.Change), P b → P (b.amend id change).2

namespace IsInvariant

variable {settings : Settings} {steps : Step → Prop} {P : Book → Prop} {b : Book}

theorem of_keeps (hkeeps : ∀ {b b' : Book}, b.Keeps b' → P b → P b')
    (hrecord : ∀ {b : Book} (targetEntity : String) (targetId : Identifier)
      (changes : List Audit.Change) (userId : Identifier) (action : Audit.Action),
      P b → P (b.record targetEntity targetId changes userId action).2)
    (hamend : ∀ {b : Book} (id : Identifier) (change : Audit.Change), P b → P (b.amend id change).2) :
    IsInvariant settings Step.IsAllowed P where
  step {b s} hs hb := by
    have heffect := s.effect settings b hs
    generalize (s.run settings b).2 = b', s.writes settings b = ws at heffect ⊢
    cases heffect with
    | silent h => exact hkeeps h hb
    | recorded h w changes hw => exact hrecord _ _ _ _ _ (hkeeps h hb)
  record := hrecord
  amend := hamend

theorem runSteps (h : IsInvariant settings steps P) {ss : List Step} (hss : ∀ s ∈ ss, steps s)
    (hb : P b) : P (b.runSteps settings ss) := by
  induction ss generalizing b with
  | nil => exact hb
  | cons s ss ih =>
    rw [List.forall_mem_cons] at hss
    exact ih hss.2 (h.step hss.1 hb)

theorem run (h : IsInvariant settings steps P) {d : Deed}
    (hd : ∀ c, d = .call c → ∀ s ∈ c.plan b, steps s) (hb : P b) : P (d.run settings b) := by
  cases d with
  | call c =>
    rw [Deed.run, ← c.runSteps_steps]
    exact h.runSteps (fun s hs => hd c rfl s (mem_of_mem_untilFailure hs)) hb
  | amend id change => exact h.amend id change hb
  | record targetEntity targetId changes userId action => exact h.record _ _ _ _ _ hb

theorem afterDeeds (h : IsInvariant settings steps P) {deeds : List Deed}
    (hdeeds : ∀ c, Deed.call c ∈ deeds → ∀ b, ∀ s ∈ c.plan b, steps s) (hb : P b) :
    P (b.afterDeeds settings deeds) := by
  induction deeds generalizing b with
  | nil => exact hb
  | cons d deeds ih =>
    have hd : ∀ c, d = .call c → ∀ s ∈ c.plan b, steps s := fun c hc => hdeeds c (by simp [hc]) b
    exact ih (fun c hc => hdeeds c (List.mem_cons_of_mem d hc)) (h.run hd hb)

end IsInvariant

theorem isAllowed_of_deeds {deeds : List Deed}
    (hdeeds : ∀ c, Deed.call c ∈ deeds → c.entity ∈ catalog) :
    ∀ c, Deed.call c ∈ deeds → ∀ b, ∀ s ∈ c.plan b, s.IsAllowed :=
  fun c hc _ _ hs => Call.isAllowed_of_mem_plan (hdeeds c hc) hs

variable {b : Book}

theorem isInvariant_advances (settings : Settings) (ht : b.trail = .documents)
    (hclock : b.KeepsTime) : IsInvariant settings Step.IsAllowed b.Advances :=
  .of_keeps (fun hkeeps h => h.trans (advances_of_keeps hkeeps h.trail))
    (fun _ _ _ _ _ h => h.trans (advances_record h.trail (h.keepsTime ht hclock) ..))
    (fun id change h => h.trans (advances_amend h.trail (h.keepsTime ht hclock) id change))

theorem advances_afterDeeds (settings : Settings) {deeds : List Deed}
    (hdeeds : ∀ c, Deed.call c ∈ deeds → c.entity ∈ catalog) (ht : b.trail = .documents)
    (hclock : b.KeepsTime) : b.Advances (b.afterDeeds settings deeds) :=
  (isInvariant_advances settings ht hclock).afterDeeds (isAllowed_of_deeds hdeeds) (.refl ht)

/-- Where the records are documents of the store that all can be read, and stamps can hold what the
clock says, they can all be read at any later time; and from any time to any later one they have
only grown. -/
theorem records_grow (settings : Settings) {b : Book} (ht : b.trail = .documents)
    (hclock : b.KeepsTime) {rs : List Audit.Record} (hrs : b.records = .ok rs)
    {before after : List Deed}
    (hdeeds : ∀ c, Deed.call c ∈ before ++ after → c.entity ∈ catalog) :
    ∃ rs₁ rs₂, (b.afterDeeds settings before).records = .ok rs₁ ∧
      (b.afterDeeds settings (before ++ after)).records = .ok rs₂ ∧
      Grows rs rs₁ ∧ Grows rs₁ rs₂ := by
  have hfirst := advances_afterDeeds settings
    (fun c hc => hdeeds c (List.mem_append_left after hc)) ht hclock
  have hsecond := advances_afterDeeds settings
    (fun c hc => hdeeds c (List.mem_append_right before hc)) hfirst.trail
    (hfirst.keepsTime ht hclock)
  obtain ⟨rs₁, hrs₁, hgrows₁⟩ := hfirst.grows rs hrs
  obtain ⟨rs₂, hrs₂, hgrows₂⟩ := hsecond.grows rs₁ hrs₁
  have hrun : b.afterDeeds settings (before ++ after) =
      (b.afterDeeds settings before).afterDeeds settings after := List.foldl_append
  exact ⟨rs₁, rs₂, hrs₁, hrun ▸ hrs₂, hgrows₁, hgrows₂⟩

theorem records_grow_amended :
    let time : Time.Instant := ⟨19844, 36000, 250000000⟩
    let b : Book := ⟨.empty, .documents, .zero, [],
      ⟨fun n => ⟨BitVec.ofNat 128 n⟩, fun _ => time, 0, 0⟩⟩
    let before : List Deed := [.call (.createOne companies (.obj [("name", .str "Initech")]) ⟨99⟩)]
    let after : List Deed := [.call (.deleteMany audits none), .call (.deleteOne audits ⟨1⟩),
      .amend ⟨1⟩ ⟨"name", some "Initech", "Initrode"⟩, .record "Company" ⟨0⟩ [] ⟨98⟩ .update]
    b.trail = .documents ∧ b.KeepsTime ∧ b.records = .ok [] ∧
      (∀ c, Deed.call c ∈ before ++ after → c.entity ∈ catalog) ∧
      ∃ rs₁ rs₂, (b.afterDeeds .standard before).records = .ok rs₁ ∧
        (b.afterDeeds .standard (before ++ after)).records = .ok rs₂ ∧ Grows rs₁ rs₂ ∧
        rs₁.map (·.changes.length) = [1] ∧ rs₂.map (·.changes.length) = [2, 0] := by
  intro time b before after
  have htime : time.toMillisPrecision.IsRecorded :=
    ⟨by decide, by decide, by decide, fun h => absurd h (by decide)⟩
  have hclock : b.KeepsTime := fun _ _ => htime
  have hdeeds : ∀ c, Deed.call c ∈ before ++ after → c.entity ∈ catalog := by
    simp [before, after, Call.entity, catalog]
  obtain ⟨rs₁, rs₂, hrs₁, hrs₂, -, hgrows⟩ := records_grow .standard rfl hclock rfl hdeeds
  have hlengths (deeds : List Deed) {rs : List Audit.Record}
      (hrs : (b.afterDeeds .standard deeds).records = .ok rs) : rs.map (·.changes.length) =
        ((b.afterDeeds .standard deeds).records.toOption.getD []).map (·.changes.length) := by
    rw [hrs]
    rfl
  refine ⟨rfl, hclock, rfl, hdeeds, rs₁, rs₂, hrs₁, hrs₂, hgrows, ?_, ?_⟩
  · rw [hlengths before hrs₁]
    decide +kernel
  · rw [hlengths (before ++ after) hrs₂]
    decide +kernel

end Book

end Crm

end Clientele
