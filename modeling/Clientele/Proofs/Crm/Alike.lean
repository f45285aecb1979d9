import Clientele.Proofs.Crm.Storable
import Clientele.Proofs.Store.Alike

/-!
Books that are alike but for their counters and their log: they have the same records and the same
supply, and stores that are alike. Whatever is done to both has the same answer, and leaves them
alike.
-/
set_option autoImplicit false

namespace Clientele

namespace Audit.Trail

/-- The trail of a session, which has a journal or not. The text of a journal is replayed as its
records, and can be gone on with on a new line. -/
def IsRestored (hasJournal : Bool) : Trail → Prop
  | journal rs text => hasJournal = true ∧ Text.IsComplete text ∧ replay text = .ok rs
  | documents => hasJournal = false
  | _ => False

variable {files : List String} {hasJournal : Bool} {s s' : Store} {t : Trail}

theorem IsRestored.exists_journal {t : Trail} (h : t.IsRestored true) :
    ∃ rs text, t = .journal rs text := by
  cases t with
  | journal rs text => exact ⟨rs, text, rfl⟩
  | documents => cases h
  | _ => exact h.elim

theorem isUsable_auditCollection : Store.IsUsable auditCollection :=
  ⟨by decide, by unfold Route.IsPart; decide⟩

theorem insert_alike (h : Store.Alike files s s') (ht : t.IsRestored hasJournal) {r : Record}
    (hr : r.IsRecorded) :
    ∃ answer t₁ s₁ s₁', t.insert s r = (answer, t₁, s₁) ∧ t.insert s' r = (answer, t₁, s₁') ∧
      Store.Alike files s₁ s₁' ∧ t₁.IsRestored hasJournal := by
  cases t with
  | memory rs | failing | faulty rs faults => exact ht.elim
  | journal rs text =>
    obtain ⟨hjournal, hcomplete, hreplay⟩ := ht
    refine ⟨_, _, s, s', rfl, rfl, h, hjournal, ?_,
      replay_append_line (e := .record r) hcomplete hreplay hr rfl⟩
    exact (Entry.isComplete_line _).append (by rw [Entry.line_eq]; simp)
  | documents =>
    obtain ⟨answer, s₁, s₁', hs, hs', halike⟩ :=
      h.insert isUsable_auditCollection r.isStorable_toDocument
    simp only [insert, hs, hs']
    cases answer with
    | ok u => exact ⟨_, _, _, _, rfl, rfl, halike, ht⟩
    | error e => exact ⟨_, _, _, _, rfl, rfl, halike, ht⟩

theorem records_alike (h : Store.Alike files s s') (t : Trail) : t.records s' = t.records s := by
  cases t with
  | documents => simp only [records, (h.collections auditCollection).documents]
  | _ => rfl

end Audit.Trail

namespace Crm

theorem isUsable_of_mem_catalog {e : Entity} (he : e ∈ catalog) : Store.IsUsable e.collection := by
  have hall : catalog.all fun e => e.collection != "" && !e.collection.toList.contains '/' := by
    decide
  have h := Bool.and_eq_true_iff.mp (List.all_eq_true.mp hall e he)
  refine ⟨bne_iff_ne.mp h.1, ?_⟩
  simpa [Route.IsPart] using h.2

namespace Book

variable {files : List String} {hasJournal : Bool}

structure Alike (files : List String) (hasJournal : Bool) (b b' : Book) : Prop where
  store : Store.Alike files b.store b'.store
  restored : b.trail.IsRestored hasJournal
  clock : ∀ n, (b.supply.time n).toMillisPrecision.IsRecorded
  trail : b'.trail = b.trail
  supply : b'.supply = b.supply

structure Same {α : Type} (files : List String) (hasJournal : Bool) (r r' : α × Book) : Prop where
  answer : r'.1 = r.1
  book : Alike files hasJournal r.2 r'.2

namespace Alike

variable {b b' : Book} {α : Type}

theorem left (h : Alike files hasJournal b b') : Alike files hasJournal b b :=
  ⟨h.store.left, h.restored, h.clock, rfl, rfl⟩

theorem same (h : Alike files hasJournal b b') (answer : α) :
    Same files hasJournal (answer, b) (answer, b') := ⟨rfl, h⟩

theorem record (h : Alike files hasJournal b b') (targetEntity : String) (targetId : Identifier)
    (changes : List Audit.Change) (userId : Identifier) (action : Audit.Action) :
    Same files hasJournal (b.record targetEntity targetId changes userId action)
      (b'.record targetEntity targetId changes userId action) := by
  have hnext : b'.nextRecord targetEntity targetId changes userId action =
      b.nextRecord targetEntity targetId changes userId action := by
    rw [nextRecord, nextRecord, h.supply]
  obtain ⟨answer, trail, store, store', hinsert, hinsert', hstore, hrestored⟩ :=
    Audit.Trail.insert_alike (r := b.nextRecord targetEntity targetId changes userId action) h.store
      h.restored ⟨h.clock _, h.clock _⟩
  rw [← h.trail, ← hnext] at hinsert'
  obtain ⟨log, hrecord⟩ := record_eq hinsert
  obtain ⟨log', hrecord'⟩ := record_eq hinsert'
  rw [hrecord, hrecord', hnext]
  exact ⟨rfl, hstore, hrestored, h.clock, rfl, by rw [h.supply]⟩

theorem recordIfAudited (h : Alike files hasJournal b b') (e : Entity) (id : Identifier)
    (changes : List Audit.Change) (userId : Identifier) (action : Audit.Action) :
    Same files hasJournal (b.recordIfAudited e id changes userId action)
      (b'.recordIfAudited e id changes userId action) := by
  unfold Book.recordIfAudited
  split
  · obtain ⟨hanswer, hbook⟩ := h.record e.auditName id changes userId action
    exact ⟨congrArg some hanswer, hbook⟩
  · exact h.same none

theorem mutation (h : Alike files hasJournal b b') (node : Fields) (e : Entity) (id : Identifier)
    (changes : List Audit.Change) (userId : Identifier) (action : Audit.Action) :
    Same files hasJournal
      (match b.recordIfAudited e id changes userId action with
        | (audit, b) => ((.ok ⟨node, audit⟩ : Except Error Mutation), b))
      (match b'.recordIfAudited e id changes userId action with
        | (audit, b') => (.ok ⟨node, audit⟩, b')) := by
  obtain ⟨haudit, hbook⟩ := h.recordIfAudited e id changes userId action
  exact ⟨congrArg (fun audit => Except.ok (Mutation.mk node audit)) haudit, hbook⟩

theorem insert (h : Alike files hasJournal b b') {e : Entity} (he : e ∈ catalog) {values : Fields}
    (hvalues : values.HoldStorable) (userId : Identifier) :
    Same files hasJournal (b.insert e values userId) (b'.insert e values userId) := by
  have hnext : b'.nextDocument e values userId = b.nextDocument e values userId := by
    rw [nextDocument, nextDocument, h.supply]
  have hdoc : (b.nextDocument e values userId).IsStorable :=
    isStorable_newDocument he hvalues _ userId _
  obtain ⟨answer, store, store', hinsert, hinsert', hstore⟩ :=
    h.store.insert (isUsable_of_mem_catalog he) hdoc
  rw [← hnext] at hinsert'
  cases answer with
  | error err =>
    rw [insert_of_error hinsert, insert_of_error hinsert']
    exact ⟨rfl, hstore, h.restored, h.clock, h.trail, by rw [h.supply]⟩
  | ok u =>
    obtain ⟨log, hrun⟩ := insert_of_ok hinsert
    obtain ⟨log', hrun'⟩ := insert_of_ok hinsert'
    rw [hrun, hrun', hnext, h.supply, h.trail]
    refine mutation ?_ (b.nextDocument e values userId) e _ _ userId .create
    exact ⟨hstore, h.restored, h.clock, rfl, rfl⟩

theorem updateOne (h : Alike files hasJournal b b') {e : Entity} (he : e ∈ catalog)
    (id : Identifier) {patch : Json}
    (hpatch : ∀ fields : Fields, patch = .obj fields → fields.HoldStorable) (userId : Identifier) :
    Same files hasJournal (b.updateOne e id patch userId) (b'.updateOne e id patch userId) := by
  unfold Book.updateOne
  split
  · exact h.same _
  · exact h.same _
  · rename_i fields _ hpayload
    have hfields := hpatch fields (payload_eq_ok.mp hpayload).1
    rw [h.store.get?]
    split
    · exact h.same _
    · rename_i previous _
      have hwritten := holdStorable_stamped (holdStorable_effectivePatch e previous hfields) userId
        (b.supply.time b.supply.timesDrawn).toMillisPrecision
      obtain ⟨node?, store, store', hupdate, hupdate', hstore⟩ :=
        h.store.update (isUsable_of_mem_catalog he) id hwritten
      simp only [Book.patch, now, h.supply, hupdate, hupdate']
      cases node? with
      | none => exact ⟨rfl, h.store, h.restored, h.clock, h.trail, rfl⟩
      | some node =>
        refine mutation ?_ node e id _ userId .update
        exact ⟨hstore, h.restored, h.clock, h.trail, rfl⟩

theorem deleteOne (h : Alike files hasJournal b b') {e : Entity} (he : e ∈ catalog)
    (id : Identifier) :
    Same files hasJournal (b.deleteOne e id) (b'.deleteOne e id) := by
  unfold Book.deleteOne
  split
  · exact h.same _
  · obtain ⟨node?, store, store', hdelete, hdelete', hstore⟩ :=
      h.store.delete (isUsable_of_mem_catalog he) id
    rw [hdelete, hdelete']
    cases node? with
    | none => exact h.same _
    | some node => exact ⟨rfl, hstore, h.restored, h.clock, h.trail, h.supply⟩

theorem each {β : Type} {f : Book → α → Except Error β × Book} {xs : List α}
    (hf : ∀ x ∈ xs, ∀ {b b' : Book}, Alike files hasJournal b b' →
      Same files hasJournal (f b x) (f b' x))
    (h : Alike files hasJournal b b') : Same files hasJournal (b.each f xs) (b'.each f xs) := by
  induction xs generalizing b b' with
  | nil => exact h.same _
  | cons x xs ih =>
    rw [List.forall_mem_cons] at hf
    obtain ⟨hanswer, hbook⟩ := hf.1 h
    rw [Book.each, Book.each]
    rcases hx : f b x with ⟨answer, b₁⟩
    rcases hx' : f b' x with ⟨answer', b₁'⟩
    rw [hx, hx'] at hanswer hbook
    cases hanswer
    cases answer with
    | error err => exact ⟨rfl, hbook⟩
    | ok y =>
      obtain ⟨hanswers, hbooks⟩ := ih hf.2 hbook
      exact ⟨congrArg (Except.map (y :: ·)) hanswers, hbooks⟩

theorem createOne (h : Alike files hasJournal b b') {e : Entity} (he : e ∈ catalog) {values : Json}
    (hvalues : ∀ fields : Fields, values = .obj fields → fields.HoldStorable) (userId : Identifier) :
    Same files hasJournal (b.createOne e values userId) (b'.createOne e values userId) := by
  unfold Book.createOne
  split
  · exact h.same _
  · exact h.same _
  · rename_i fields _ hpayload
    exact h.insert he (hvalues fields (payload_eq_ok.mp hpayload).1) userId

theorem createMany (h : Alike files hasJournal b b') {e : Entity} (he : e ∈ catalog)
    {values : List Json} (hvalues : ∀ fields : Fields, .obj fields ∈ values → fields.HoldStorable)
    (userId : Identifier) :
    Same files hasJournal (b.createMany e values userId) (b'.createMany e values userId) := by
  unfold Book.createMany
  split
  · exact h.same _
  · exact h.same _
  · rename_i payloads _ hpayloads
    refine each (fun fields hfields b b' h => h.insert he ?_ userId) h
    obtain ⟨v, hv, hpayload⟩ := Except.exists_of_mem_mapM hpayloads hfields
    exact hvalues fields ((payload_eq_ok.mp hpayload).1 ▸ hv)

theorem reportIgnored (h : Alike files hasJournal b b') (ignored : List Filter.Ignored) :
    Alike files hasJournal (b.reportIgnored ignored) (b'.reportIgnored ignored) := by
  induction ignored generalizing b b' with
  | nil => exact h
  | cons i ignored ih =>
    have hreport (fields : List (String × String)) : Alike files hasJournal
        (b.report .filterOperatorIgnored fields) (b'.report .filterOperatorIgnored fields) :=
      ⟨h.store, h.restored, h.clock, h.trail, h.supply⟩
    exact ih (hreport _)

theorem accept (h : Alike files hasJournal b b') (r : Filter.Reading α) :
    Same files hasJournal (b.accept r) (b'.accept r) := ⟨rfl, h.reportIgnored r.ignored⟩

theorem find (h : Alike files hasJournal b b') (settings : Settings) (e : Entity)
    (q : Query.Criteria) :
    Same files hasJournal (b.find settings e q) (b'.find settings e q) := by
  have hrun (p : Query.Plan) : p.run b'.store e.collection = p.run b.store e.collection := by
    simp only [Query.Plan.run, Query.Plan.total, Store.aggregate, Store.countAll, h.store.rows,
      (h.store.collections e.collection).documents]
  have hexecute : Query.execute b'.store e.collection q e.relations settings.maxLimit =
      Query.execute b.store e.collection q e.relations settings.maxLimit := by
    simp only [Query.execute, hrun]
  unfold Book.find
  rw [hexecute]
  split
  · exact ⟨rfl, h.store, h.restored, h.clock, h.trail, h.supply⟩
  · exact ⟨rfl, h.store, h.restored, h.clock, h.trail, h.supply⟩

theorem findOne (h : Alike files hasJournal b b') (e : Entity) (id : Identifier) :
    b'.findOne e id = b.findOne e id := by
  simp only [Book.findOne, Store.aggregate, h.store.rows]

theorem recent (h : Alike files hasJournal b b') (q : Audit.FeedQuery) :
    b'.recent q = b.recent q := by
  rw [Book.recent, Book.recent, records, records, h.trail, Audit.Trail.records_alike h.store]

end Alike

theorem accept_eq {α : Type} (b : Book) (r : Filter.Reading α) :
    ∃ log, (b.accept r).2 = { b with log := log } := by
  have hreport (ignored : List Filter.Ignored) :
      ∀ b : Book, ∃ log, b.reportIgnored ignored = { b with log := log } := by
    induction ignored with
    | nil => exact fun b => ⟨b.log, rfl⟩
    | cons i ignored ih =>
      intro b
      exact ih (b.report .filterOperatorIgnored [("field", i.field.text), ("operator", i.operator)])
  exact hreport r.ignored b

theorem find_eq (b : Book) (settings : Settings) (e : Entity) (q : Query.Criteria) :
    ∃ counters log, (b.find settings e q).2 = { b with counters := counters, log := log } := by
  unfold Book.find
  split <;> exact ⟨_, _, rfl⟩

end Book

end Crm

end Clientele
