import Mathlib.Data.List.Forall2
import Clientele.Proofs.Crm.Script

/-!
What becomes of records changes nothing else. A script runs on a book whose trail takes every
record, and on one whose trail refuses them all: documents, answers and counters are the same after
each call, and each record that the first book has is one failure in the second.
-/
set_option autoImplicit false

namespace Clientele

def Telemetry.Counters.unrecorded (c : Counters) : Counters :=
  { c with auditRecordsWritten := 0, auditWriteFailures := 0 }

namespace Crm

/-- The same document; where the first was recorded, the second has an error. -/
inductive Mutation.Loses : Mutation → Mutation → Prop
  | unrecorded (node : Fields) : Loses ⟨node, none⟩ ⟨node, none⟩
  | recorded (node : Fields) (r : Audit.Record) (e : Audit.Error) :
    Loses ⟨node, some (.ok r)⟩ ⟨node, some (.error e)⟩

inductive Answer.Loses : Answer → Answer → Prop
  | mutation {m m' : Mutation} (h : m.Loses m') : Loses (.mutation m) (.mutation m')
  | mutations {ms ms' : List Mutation} (h : List.Forall₂ Mutation.Loses ms ms') :
    Loses (.mutations ms) (.mutations ms')
  | document (doc : Fields) : Loses (.document doc) (.document doc)
  | documents (docs : List Fields) : Loses (.documents docs) (.documents docs)
  | page (c : Query.Connection) : Loses (.page c) (.page c)
  | found (v : Option Json) : Loses (.found v) (.found v)

namespace Book

/-- A book that has kept all records since a start, and one that has lost them. -/
inductive Loses (rs : List Audit.Record) (start : Telemetry.Counters) : Book → Book → Prop
  | mk (store : Store) (supply : Supply) (c : Telemetry.Counters) (lost : List Audit.Record)
    (log log' : List Telemetry.Entry) :
    Loses rs start
      ⟨store, .memory (rs ++ lost),
        { c with
          auditRecordsWritten := start.auditRecordsWritten + lost.length
          auditWriteFailures := start.auditWriteFailures },
        log, supply⟩
      ⟨store, .failing,
        { c with
          auditRecordsWritten := start.auditRecordsWritten
          auditWriteFailures := start.auditWriteFailures + lost.length },
        log', supply⟩

variable {rs : List Audit.Record} {start : Telemetry.Counters} {b b' : Book} {α β : Type}

def Matches (rs : List Audit.Record) (start : Telemetry.Counters) (R : α → β → Prop)
    (r : Except Error α × Book) (r' : Except Error β × Book) : Prop :=
  Except.Agree R r.1 r'.1 ∧ Loses rs start r.2 r'.2

namespace Loses

theorem record (h : Loses rs start b b') (targetEntity : String) (targetId : Identifier)
    (changes : List Audit.Change) (userId : Identifier) (action : Audit.Action) :
    ∃ r e b₁ b₁', b.record targetEntity targetId changes userId action = (.ok r, b₁) ∧
      b'.record targetEntity targetId changes userId action = (.error e, b₁') ∧
      Loses rs start b₁ b₁' := by
  obtain ⟨store, supply, c, lost, log, log'⟩ := h
  have hstep := fun r => @Loses.mk rs start store supply.next c (lost ++ [r])
  simp only [← List.append_assoc, List.length_append, List.length_singleton, ← Nat.add_assoc] at hstep
  exact ⟨_, _, _, _, rfl, rfl, hstep _ _ _⟩

theorem recordIfAudited (h : Loses rs start b b') (e : Entity) (id : Identifier)
    (changes : List Audit.Change) (userId : Identifier) (action : Audit.Action) (node : Fields) :
    Mutation.Loses ⟨node, (b.recordIfAudited e id changes userId action).1⟩
        ⟨node, (b'.recordIfAudited e id changes userId action).1⟩ ∧
      Loses rs start (b.recordIfAudited e id changes userId action).2
        (b'.recordIfAudited e id changes userId action).2 := by
  unfold Book.recordIfAudited
  split
  · obtain ⟨r, err, b₁, b₁', hrecord, hrecord', hlater⟩ :=
      h.record e.auditName id changes userId action
    rw [hrecord, hrecord']
    exact ⟨.recorded node r err, hlater⟩
  · exact ⟨.unrecorded node, h⟩

theorem insert (h : Loses rs start b b') (e : Entity) (values : Fields) (userId : Identifier) :
    Matches rs start Mutation.Loses (b.insert e values userId) (b'.insert e values userId) := by
  obtain ⟨store, supply, c, lost, log, log'⟩ := h
  simp only [Book.insert, freshId, now]
  rcases store.insert e.collection
    (.obj (newDocument e (supply.id supply.idsDrawn) userId
      (supply.time supply.timesDrawn).toMillisPrecision values)) with ⟨answer, store⟩
  cases answer with
  | error err => exact ⟨.error _, .mk store supply.next c lost log log'⟩
  | ok u =>
    have hcreated := @Loses.mk rs start store supply.next
      { c with entitiesCreated := c.entitiesCreated + 1 } lost
    obtain ⟨hmutation, hlater⟩ := (hcreated _ _).recordIfAudited e _ _ userId .create _
    exact ⟨.ok hmutation, hlater⟩

theorem updateOne (h : Loses rs start b b') (e : Entity) (id : Identifier) (patch : Json)
    (userId : Identifier) :
    Matches rs start Mutation.Loses (b.updateOne e id patch userId)
      (b'.updateOne e id patch userId) := by
  obtain ⟨store, supply, c, lost, log, log'⟩ := h
  unfold Book.updateOne
  split
  · exact ⟨.error _, .mk store supply c lost log log'⟩
  · exact ⟨.error _, .mk store supply c lost log log'⟩
  · rename_i fields _ _
    simp only [Book.patch, now]
    cases hprevious : store.get? e.collection id with
    | none => exact ⟨.error _, .mk store supply c lost log log'⟩
    | some previous =>
      simp only
      rcases store.update e.collection id (stamped (effectivePatch e previous fields) userId
        (supply.time supply.timesDrawn).toMillisPrecision) with ⟨node?, store'⟩
      cases node? with
      | none =>
        exact ⟨.error _,
          .mk store { supply with timesDrawn := supply.timesDrawn + 1 } c lost log log'⟩
      | some node =>
        have hupdated := @Loses.mk rs start store' { supply with timesDrawn := supply.timesDrawn + 1 }
          { c with entitiesUpdated := c.entitiesUpdated + 1 } lost
        obtain ⟨hmutation, hlater⟩ := (hupdated _ _).recordIfAudited e id _ userId .update node
        exact ⟨.ok hmutation, hlater⟩

theorem deleteOne (h : Loses rs start b b') (e : Entity) (id : Identifier) :
    Matches rs start Eq (b.deleteOne e id) (b'.deleteOne e id) := by
  obtain ⟨store, supply, c, lost, log, log'⟩ := h
  unfold Book.deleteOne
  split
  · exact ⟨.error _, .mk store supply c lost log log'⟩
  · simp only
    rcases store.delete e.collection id with ⟨node?, store'⟩
    cases node? with
    | none => exact ⟨.error _, .mk store supply c lost log log'⟩
    | some node =>
      exact ⟨.ok rfl,
        .mk store' supply { c with entitiesDeleted := c.entitiesDeleted + 1 } lost _ _⟩

theorem find (h : Loses rs start b b') (settings : Settings) (e : Entity) (q : Query.Criteria) :
    Matches rs start Eq (b.find settings e q) (b'.find settings e q) := by
  obtain ⟨store, supply, c, lost, log, log'⟩ := h
  simp only [Book.find]
  cases Query.execute store e.collection q e.relations settings.maxLimit with
  | error err =>
    exact ⟨.error _, .mk store supply
      { c with queriesRejected := c.queriesRejected + 1 } lost _ _⟩
  | ok page =>
    exact ⟨.ok rfl, .mk store supply
      { c with
        queriesExecuted := c.queriesExecuted + 1
        rowsReturned := c.rowsReturned + page.nodes.length } lost _ _⟩

theorem each {γ : Type} {R : α → β → Prop} {f : Book → γ → Except Error α × Book}
    {g : Book → γ → Except Error β × Book}
    (hfg : ∀ b b' x, Loses rs start b b' → Matches rs start R (f b x) (g b' x))
    (h : Loses rs start b b') (xs : List γ) :
    Matches rs start (List.Forall₂ R) (b.each f xs) (b'.each g xs) := by
  induction xs generalizing b b' with
  | nil => exact ⟨.ok .nil, h⟩
  | cons x xs ih =>
    obtain ⟨hanswer, hlater⟩ := hfg b b' x h
    simp only [Book.each]
    rcases hf : f b x with ⟨answer, b₁⟩
    rcases hg : g b' x with ⟨answer', b₁'⟩
    rw [hf, hg] at hanswer hlater
    cases hanswer with
    | error e => exact ⟨.error e, hlater⟩
    | ok hy =>
      obtain ⟨hrest, hend⟩ := ih hlater
      exact ⟨hrest.map fun _ _ hys => .cons hy hys, hend⟩

theorem matchingIds (h : Loses rs start b b') (e : Entity) (filter : Option Filter.Tree) :
    b'.matchingIds e filter = b.matchingIds e filter := by
  obtain ⟨⟩ := h
  rfl

theorem createOne (h : Loses rs start b b') (e : Entity) (values : Json) (userId : Identifier) :
    Matches rs start Mutation.Loses (b.createOne e values userId)
      (b'.createOne e values userId) := by
  unfold Book.createOne
  split
  · exact ⟨.error _, h⟩
  · exact ⟨.error _, h⟩
  · exact h.insert ..

theorem createMany (h : Loses rs start b b') (e : Entity) (values : List Json)
    (userId : Identifier) :
    Matches rs start (List.Forall₂ Mutation.Loses) (b.createMany e values userId)
      (b'.createMany e values userId) := by
  unfold Book.createMany
  split
  · exact ⟨.error _, h⟩
  · exact ⟨.error _, h⟩
  · exact each (fun _ _ values hb => hb.insert e values userId) h _

theorem updateMany (h : Loses rs start b b') (e : Entity) (filter : Option Filter.Tree)
    (patch : Json) (userId : Identifier) :
    Matches rs start (List.Forall₂ Mutation.Loses) (b.updateMany e filter patch userId)
      (b'.updateMany e filter patch userId) := by
  unfold Book.updateMany
  rw [h.matchingIds]
  split
  · exact ⟨.error _, h⟩
  · exact ⟨.error _, h⟩
  · exact each (fun _ _ id hb => hb.updateOne e id patch userId) h _

theorem deleteMany (h : Loses rs start b b') (e : Entity) (filter : Option Filter.Tree) :
    Matches rs start (List.Forall₂ Eq) (b.deleteMany e filter) (b'.deleteMany e filter) := by
  unfold Book.deleteMany
  rw [h.matchingIds]
  split
  · exact ⟨.error _, h⟩
  · exact ⟨.error _, h⟩
  · exact each (fun _ _ id hb => hb.deleteOne e id) h _

theorem call (h : Loses rs start b b') (settings : Settings) (c : Call) :
    Matches rs start Answer.Loses (c.run settings b) (c.run settings b') := by
  cases c with
  | createOne e values userId =>
    exact (h.createOne e values userId).imp_left (.map fun _ _ => .mutation)
  | createMany e values userId =>
    exact (h.createMany e values userId).imp_left (.map fun _ _ => .mutations)
  | updateOne e id patch userId =>
    exact (h.updateOne e id patch userId).imp_left (.map fun _ _ => .mutation)
  | updateMany e filter patch userId =>
    exact (h.updateMany e filter patch userId).imp_left (.map fun _ _ => .mutations)
  | deleteOne e id =>
    refine (h.deleteOne e id).imp_left (.map ?_)
    rintro doc _ rfl
    exact .document doc
  | deleteMany e filter =>
    refine (h.deleteMany e filter).imp_left (.map ?_)
    rintro docs docs' hdocs
    rw [List.forall₂_eq_eq_eq] at hdocs
    exact hdocs ▸ .documents docs
  | find e q =>
    refine (h.find settings e q).imp_left (.map ?_)
    rintro page _ rfl
    exact .page page
  | findOne e id =>
    obtain ⟨store, supply, c, lost, log, log'⟩ := h
    exact ⟨.ok (.found _), .mk store supply c lost log log'⟩

end Loses

/-- What each call of a script answers, and the book after it. -/
def trace (settings : Settings) (b : Book) : List Call → List (Except Error Answer × Book)
  | [] => []
  | c :: cs => c.run settings b :: trace settings (c.run settings b).2 cs

theorem Loses.trace (h : Loses rs start b b') (settings : Settings) (calls : List Call) :
    List.Forall₂ (Matches rs start Answer.Loses) (b.trace settings calls)
      (b'.trace settings calls) := by
  induction calls generalizing b b' with
  | nil => exact .nil
  | cons c calls ih =>
    have hcall := h.call settings c
    exact .cons hcall (ih hcall.2)

/-- A script that runs on the same book with a trail in memory and with one that refuses every
record has the same answers up to what came of recording, the same documents after every call, and
the same counters but for those of records. Each record of the first run is one failure of the
second. -/
theorem forall_trace_failing (settings : Settings) (store : Store) (rs : List Audit.Record)
    (start : Telemetry.Counters) (log : List Telemetry.Entry) (supply : Supply)
    (calls : List Call) :
    List.Forall₂
      (fun r r' =>
        Except.Agree Answer.Loses r.1 r'.1 ∧ r'.2.store = r.2.store ∧
          r'.2.counters.unrecorded = r.2.counters.unrecorded ∧
          ∃ lost, r.2.trail = .memory (rs ++ lost) ∧
            r.2.counters.auditRecordsWritten = start.auditRecordsWritten + lost.length ∧
            r'.2.counters.auditWriteFailures = start.auditWriteFailures + lost.length)
      (trace settings ⟨store, .memory rs, start, log, supply⟩ calls)
      (trace settings ⟨store, .failing, start, log, supply⟩ calls) := by
  have h := @Loses.mk rs start store supply start [] log log
  rw [List.append_nil] at h
  refine (h.trace settings calls).imp fun r r' hr => ?_
  obtain ⟨answer, b⟩ := r
  obtain ⟨answer', b'⟩ := r'
  obtain ⟨hanswer, store, supply, c, lost, log, log'⟩ := hr
  exact ⟨hanswer, rfl, rfl, lost, rfl, rfl, rfl⟩

end Book

end Crm

end Clientele
