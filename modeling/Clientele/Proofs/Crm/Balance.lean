import Clientele.Proofs.Crm.Growth
import Clientele.Proofs.Store.Count

/-!
The counters balance. Whatever is done to a book, the documents that it has gained are those that
were created and not deleted, every document that was written has been recorded or has failed to be,
the trail has gained the records that were written, and queries, their rows and amendments are
counted once each.
-/
set_option autoImplicit false

namespace Clientele

namespace Audit.Trail

def count (s : Store) : Trail → Nat
  | memory rs | journal rs _ | faulty rs _ => rs.length
  | documents => s.countAll auditCollection
  | failing => 0

variable {t t' : Trail} {s s' : Store} {r : Record}

theorem length_records {rs : List Record} (h : t.records s = .ok rs) : rs.length = t.count s := by
  cases t with
  | memory rs' | journal rs' text | failing | faulty rs' faults =>
    cases h
    rfl
  | documents =>
    have hlength := congrArg List.length (mapM_readDocument_eq_ok.mp h)
    rw [List.length_map, List.length_map] at hlength
    exact hlength.symm

theorem count_congr (t : Trail) (h : s'.countAll auditCollection = s.countAll auditCollection) :
    t.count s' = t.count s := by
  cases t with
  | documents => exact h
  | _ => rfl

theorem count_of_collection (t : Trail)
    (h : s'.collection auditCollection = s.collection auditCollection) : t.count s' = t.count s :=
  t.count_congr (congrArg (·.documents.length) h)

theorem count_insert (h : t.insert s r = (.ok (), t', s')) : t'.count s' = t.count s + 1 := by
  cases t with
  | memory rs | journal rs text =>
    cases h
    exact List.length_append
  | documents =>
    simp only [insert] at h
    split at h
    · rename_i hinsert
      cases h
      obtain ⟨c, hc, rfl⟩ := Store.insert_eq_ok hinsert
      obtain ⟨_, _, -, -, -, rfl⟩ := Store.Collection.insert_eq_ok hc
      rw [count, Store.countAll_put, if_pos rfl]
      exact List.length_append
    · cases h
  | failing => cases h
  | faulty rs faults =>
    simp only [insert] at h
    split at h <;> cases h
    exact List.length_append

theorem count_insert_of_error {e : Error} (h : t.insert s r = (.error e, t', s')) :
    t'.count s' = t.count s := by
  cases t with
  | memory rs | journal rs text => cases h
  | documents =>
    simp only [insert] at h
    split at h
    · cases h
    · rename_i hinsert
      cases h
      exact count_of_collection _ (Store.collection_insert_of_error hinsert _)
  | failing =>
    cases h
    rfl
  | faulty rs faults =>
    simp only [insert] at h
    split at h <;> cases h
    rfl

theorem countAll_appendChange {answer : Except Error Record} {id : Identifier} {c : Change}
    {time : Time.Instant} (h : t.appendChange s id c time = (answer, t', s')) (name : String) :
    s'.countAll name = s.countAll name := by
  by_cases ht : t = documents
  · subst ht
    simp only [appendChange] at h
    split at h
    · cases h
      rfl
    · cases h
      rfl
    · split at h
      all_goals
        rename_i hupdate
        cases h
        exact Store.countAll_update hupdate name
  · rw [appendChange_store ht h]

theorem count_appendChange {answer : Except Error Record} {id : Identifier} {c : Change}
    {time : Time.Instant} (h : t.appendChange s id c time = (answer, t', s')) :
    t'.count s' = t.count s := by
  have hstore := countAll_appendChange h auditCollection
  cases t with
  | memory rs | journal rs text =>
    simp only [appendChange] at h
    split at h
    · rename_i hamend
      cases h
      exact length_modifyLast hamend
    · cases h
      rfl
  | documents =>
    have htrail := trail_appendChange_documents s id c time
    rw [h] at htrail
    obtain rfl : t' = documents := htrail
    exact hstore
  | failing =>
    cases h
    rfl
  | faulty rs faults =>
    simp only [appendChange] at h
    split at h
    · rename_i hamend
      split at h <;> cases h
      · rfl
      · exact length_modifyLast hamend
    · cases h
      rfl

end Audit.Trail

namespace Crm

open Audit (auditCollection)

/-- What there is to count of deeds: the queries, the rows that they show, the records that are
written on their own, and the amendments that are made. A document that is still to be recorded is a
record too few. -/
structure Tally where
  finds : Nat
  rows : Nat
  records : Int
  amendments : Nat

def Tally.nothing : Tally := ⟨0, 0, 0, 0⟩

def Tally.unrecorded : Tally := ⟨0, 0, -1, 0⟩

def Tally.record : Tally := ⟨0, 0, 1, 0⟩

def Tally.add (t t' : Tally) : Tally :=
  ⟨t.finds + t'.finds, t.rows + t'.rows, t.records + t'.records, t.amendments + t'.amendments⟩

/-- The rows that a query shows, if it is not rejected. -/
def rowsShown : Except Error Query.Connection → Nat
  | .ok page => page.nodes.length
  | .error _ => 0

def amendmentsMade : Except Audit.Error Audit.Record → Nat
  | .ok _ => 1
  | .error _ => 0

namespace Deed

def tally (settings : Settings) (b : Book) : Deed → Tally
  | call (.find e q) => ⟨1, rowsShown (b.find settings e q).1, 0, 0⟩
  | call _ => .nothing
  | amend id change => ⟨0, 0, 0, amendmentsMade (b.amend id change).1⟩
  | record .. => .record

def isFind : Deed → Bool
  | call (.find ..) => true
  | _ => false

def isRecord : Deed → Bool
  | record .. => true
  | _ => false

end Deed

namespace Book

def tally (settings : Settings) (b : Book) : List Deed → Tally
  | [] => .nothing
  | d :: ds => (d.tally settings b).add ((d.run settings b).tally settings ds)

theorem tally_finds (settings : Settings) (b : Book) (deeds : List Deed) :
    (b.tally settings deeds).finds = deeds.countP Deed.isFind := by
  induction deeds generalizing b with
  | nil => rfl
  | cons d ds ih =>
    have hd : (d.tally settings b).finds = if d.isFind then 1 else 0 := by
      cases d with
      | call c => cases c <;> rfl
      | amend | record => rfl
    rw [tally, Tally.add, ih, hd, List.countP_cons, Nat.add_comm]

theorem tally_records (settings : Settings) (b : Book) (deeds : List Deed) :
    (b.tally settings deeds).records = deeds.countP Deed.isRecord := by
  induction deeds generalizing b with
  | nil => rfl
  | cons d ds ih =>
    have hd : (d.tally settings b).records = if d.isRecord then 1 else 0 := by
      cases d with
      | call c => cases c <;> rfl
      | amend | record => rfl
    simp only [tally, Tally.add, ih, hd, List.countP_cons]
    split <;> omega

/-- The number of documents that are no records. -/
def documentCount (b : Book) : Nat := b.store.documentsBeside auditCollection

def recordCount (b : Book) : Nat := b.trail.count b.store

/-- Between two books the counters have moved as the documents, the records and a tally have. -/
structure Balances (b : Book) (t : Tally) (b' : Book) : Prop where
  documents : b'.documentCount + b'.counters.entitiesDeleted + b.counters.entitiesCreated =
    b.documentCount + b.counters.entitiesDeleted + b'.counters.entitiesCreated
  attempts : (b'.counters.auditRecordsWritten + b'.counters.auditWriteFailures +
      b.counters.entitiesCreated + b.counters.entitiesUpdated : Int) =
    b.counters.auditRecordsWritten + b.counters.auditWriteFailures +
      b'.counters.entitiesCreated + b'.counters.entitiesUpdated + t.records
  records : b'.recordCount + b.counters.auditRecordsWritten =
    b.recordCount + b'.counters.auditRecordsWritten
  amendments : b'.counters.auditAmendments = b.counters.auditAmendments + t.amendments
  queries : b'.counters.queriesExecuted + b'.counters.queriesRejected =
    b.counters.queriesExecuted + b.counters.queriesRejected + t.finds
  rows : b'.counters.rowsReturned = b.counters.rowsReturned + t.rows

variable {b b' b'' : Book}

theorem Balances.refl (b : Book) : b.Balances .nothing b :=
  ⟨rfl, (Int.add_zero _).symm, rfl, rfl, rfl, rfl⟩

theorem Balances.trans {t t' : Tally} (h : b.Balances t b') (h' : b'.Balances t' b'') :
    b.Balances (t.add t') b'' := by
  obtain ⟨hdocuments, hattempts, hrecords, hamendments, hqueries, hrows⟩ := h
  obtain ⟨hdocuments', hattempts', hrecords', hamendments', hqueries', hrows'⟩ := h'
  refine ⟨by omega, ?_, by omega, ?_, ?_, ?_⟩
  all_goals
    simp only [Tally.add]
    omega

theorem balances_record (b : Book) (targetEntity : String) (targetId : Identifier)
    (changes : List Audit.Change) (userId : Identifier) (action : Audit.Action) :
    b.Balances .record (b.record targetEntity targetId changes userId action).2 := by
  rcases hinsert : b.trail.insert b.store
    (b.nextRecord targetEntity targetId changes userId action) with ⟨answer, trail, store⟩
  obtain ⟨log, hrecord⟩ := record_eq hinsert
  have hdocuments : store.documentsBeside auditCollection = b.documentCount :=
    Store.documentsBeside_congr fun other hother => by
      rw [Store.countAll, Audit.Trail.collection_insert hinsert fun _ => hother, Store.countAll]
  rw [hrecord]
  cases answer with
  | ok u =>
    have hcount := Audit.Trail.count_insert hinsert
    constructor <;>
      simp only [documentCount, recordCount, countedRecord, Tally.record] at * <;> omega
  | error e =>
    have hcount := Audit.Trail.count_insert_of_error hinsert
    constructor <;>
      simp only [documentCount, recordCount, countedRecord, Tally.record] at * <;> omega

theorem balances_amend (b : Book) (id : Identifier) (change : Audit.Change) :
    b.Balances ⟨0, 0, 0, amendmentsMade (b.amend id change).1⟩ (b.amend id change).2 := by
  rcases happend : b.trail.appendChange b.store id change
    (b.supply.time b.supply.timesDrawn).toMillisPrecision with ⟨answer, trail, store⟩
  obtain ⟨log, hamend⟩ := amend_eq happend
  have hdocuments : store.documentsBeside auditCollection = b.documentCount :=
    Store.documentsBeside_congr fun other _ => Audit.Trail.countAll_appendChange happend other
  have hcount := Audit.Trail.count_appendChange happend
  rw [hamend]
  cases answer <;> constructor <;>
    simp only [documentCount, recordCount, countedAmendment, amendmentsMade] at * <;> omega

section

variable (settings : Settings) (b : Book) {e : Entity}

theorem balances_insert {values : Fields} {userId : Identifier} (he : e ∈ catalog)
    (hw : e.readOnly = false) : b.Balances .nothing (b.insert e values userId).2 := by
  rcases hinsert : b.store.insert e.collection (.obj (b.nextDocument e values userId)) with
    ⟨answer, store⟩
  cases answer with
  | error err =>
    have hdocuments := Store.documentsBeside_insert_of_error hinsert auditCollection
    have hrecords :=
      b.trail.count_of_collection (Store.collection_insert_of_error hinsert auditCollection)
    rw [insert_of_error hinsert]
    refine ⟨?_, (Int.add_zero _).symm, ?_, rfl, rfl, rfl⟩
    · simp only [documentCount, hdocuments]
    · simp only [recordCount, hrecords]
  | ok u =>
    obtain ⟨log, hrun⟩ := insert_of_ok hinsert
    have hdocuments :=
      Store.documentsBeside_insert (collection_ne_of_mem_catalog he hw) hinsert
    have hrecords : b.trail.count store = b.trail.count b.store := by
      obtain ⟨c, -, rfl⟩ := Store.insert_eq_ok hinsert
      exact b.trail.count_of_collection (collection_put_of_mem_catalog he hw b.store c)
    -- The document is counted before it is recorded, so the book between does not balance yet.
    have hcreated : b.Balances .unrecorded ⟨store, b.trail,
        { b.counters with entitiesCreated := b.counters.entitiesCreated + 1 }, log,
        b.supply.next⟩ := by
      refine ⟨?_, ?_, ?_, rfl, rfl, rfl⟩
      · simp only [documentCount]
        omega
      · simp only [Tally.unrecorded]
        omega
      · simp only [recordCount, hrecords]
    rw [hrun, recordIfAudited_of_writable _ hw]
    exact hcreated.trans (balances_record ..)

theorem balances_updateOne (e : Entity) (id : Identifier) (patch : Json) (userId : Identifier) :
    b.Balances .nothing (b.updateOne e id patch userId).2 := by
  rcases b.updateOne_cases e id patch userId with
    ⟨err, hrun⟩ | ⟨fields, previous, store, log, hw, -, -, hupdate, hrun⟩
  · rw [hrun]
    exact .refl b
  · have hdocuments : store.documentsBeside auditCollection = b.documentCount :=
      Store.documentsBeside_congr fun other _ => Store.countAll_update hupdate other
    have hrecords := b.trail.count_congr (Store.countAll_update hupdate auditCollection)
    have hupdated : b.Balances .unrecorded ⟨store, b.trail,
        { b.counters with entitiesUpdated := b.counters.entitiesUpdated + 1 }, log,
        { b.supply with timesDrawn := b.supply.timesDrawn + 1 }⟩ := by
      refine ⟨by rw [documentCount, hdocuments], ?_, ?_, rfl, rfl, rfl⟩
      · simp only [Tally.unrecorded]
        omega
      · simp only [recordCount, hrecords]
    rw [hrun, recordIfAudited_of_writable _ hw]
    exact hupdated.trans (balances_record ..)

theorem balances_deleteOne {id : Identifier} (he : e ∈ catalog) :
    b.Balances .nothing (b.deleteOne e id).2 := by
  rcases b.deleteOne_cases e id with ⟨err, hrun⟩ | ⟨node, store, log, hw, hdelete, hrun⟩
  · rw [hrun]
    exact .refl b
  · have hdocuments := Store.documentsBeside_delete (collection_ne_of_mem_catalog he hw) hdelete
    have hrecords : b.trail.count store = b.trail.count b.store := by
      obtain ⟨c, -, rfl⟩ := Store.delete_eq_some hdelete
      exact b.trail.count_of_collection (collection_put_of_mem_catalog he hw b.store c)
    rw [hrun]
    refine ⟨?_, (Int.add_zero _).symm, ?_, rfl, rfl, rfl⟩
    · simp only [documentCount]
      omega
    · simp only [recordCount, hrecords]

theorem balances_find (e : Entity) (q : Query.Criteria) :
    b.Balances ⟨1, rowsShown (b.find settings e q).1, 0, 0⟩ (b.find settings e q).2 := by
  unfold find
  split
  · exact ⟨rfl, (Int.add_zero _).symm, rfl, rfl, by simp only [count, report]; omega, rfl⟩
  · exact ⟨rfl, (Int.add_zero _).symm, rfl, rfl, rfl, rfl⟩

theorem balances_runSteps {ss : List Step} (hss : ∀ s ∈ ss, s.IsAllowed)
    (hfinds : ∀ e q, Step.find e q ∉ ss) : b.Balances .nothing (b.runSteps settings ss) := by
  induction ss generalizing b with
  | nil => exact .refl b
  | cons s ss ih =>
    rw [List.forall_mem_cons] at hss
    have hfirst : b.Balances .nothing (s.run settings b).2 := by
      cases s with
      | insert e values userId =>
        exact b.balances_insert hss.1.1 (writable_eq_ok.mp hss.1.2.1)
      | update e id patch userId => exact b.balances_updateOne e id patch userId
      | delete e id => exact b.balances_deleteOne hss.1
      | find e q => exact absurd List.mem_cons_self (hfinds e q)
    exact hfirst.trans (ih _ hss.2 fun e q h => hfinds e q (List.mem_cons_of_mem s h))

end

theorem eq_find_of_mem_plan {c : Call} {e : Entity} {q : Query.Criteria}
    (h : Step.find e q ∈ c.plan b) : c = .find e q := by
  cases c with
  | find =>
    cases List.mem_singleton.mp h
    rfl
  | updateOne | deleteOne => cases List.mem_singleton.mp h
  | findOne => cases h
  | createOne | createMany | updateMany | deleteMany =>
    rw [Call.plan] at h
    split at h <;> simp at h

theorem balances_deed (settings : Settings) (b : Book) {d : Deed}
    (hd : ∀ c, d = .call c → c.entity ∈ catalog) :
    b.Balances (d.tally settings b) (d.run settings b) := by
  cases d with
  | amend id change => exact b.balances_amend id change
  | record => exact b.balances_record ..
  | call c =>
    by_cases hfind : ∃ e q, c = .find e q
    · obtain ⟨e, q, rfl⟩ := hfind
      exact b.balances_find settings e q
    · have hnothing : (Deed.call c).tally settings b = .nothing := by
        cases c with
        | find e q => exact absurd ⟨e, q, rfl⟩ hfind
        | _ => rfl
      have hallowed : ∀ s ∈ c.steps settings b, s.IsAllowed := fun s hs =>
        Call.isAllowed_of_mem_plan (hd c rfl) (mem_of_mem_untilFailure hs)
      have hfinds : ∀ e q, Step.find e q ∉ c.steps settings b := fun e q hs =>
        hfind ⟨e, q, eq_find_of_mem_plan (mem_of_mem_untilFailure hs)⟩
      rw [hnothing, Deed.run, ← c.runSteps_steps]
      exact b.balances_runSteps settings hallowed hfinds

theorem balances_afterDeeds (settings : Settings) (b : Book) {deeds : List Deed}
    (hdeeds : ∀ c, Deed.call c ∈ deeds → c.entity ∈ catalog) :
    b.Balances (b.tally settings deeds) (b.afterDeeds settings deeds) := by
  induction deeds generalizing b with
  | nil => exact .refl b
  | cons d deeds ih =>
    have hfirst := b.balances_deed settings (d := d) fun c hc => hdeeds c (by simp [hc])
    exact hfirst.trans (ih _ fun c hc => hdeeds c (List.mem_cons_of_mem d hc))

/-- Where the counters start at zero, they balance after any deeds on entities of the catalog,
whatever becomes of the records. -/
theorem counters_balance (settings : Settings) {b : Book} (hzero : b.counters = .zero)
    {deeds : List Deed} (hdeeds : ∀ c, Deed.call c ∈ deeds → c.entity ∈ catalog) :
    let b' := b.afterDeeds settings deeds
    let n := b'.counters
    b'.documentCount + n.entitiesDeleted = b.documentCount + n.entitiesCreated ∧
      n.auditRecordsWritten + n.auditWriteFailures =
        n.entitiesCreated + n.entitiesUpdated + deeds.countP Deed.isRecord ∧
      b'.recordCount = b.recordCount + n.auditRecordsWritten ∧
      (∀ rs rs', b.records = .ok rs → b'.records = .ok rs' →
        rs'.length = rs.length + n.auditRecordsWritten) ∧
      n.auditAmendments = (b.tally settings deeds).amendments ∧
      n.queriesExecuted + n.queriesRejected = deeds.countP Deed.isFind ∧
      n.rowsReturned = (b.tally settings deeds).rows := by
  obtain ⟨hdocuments, hattempts, hrecords, hamendments, hqueries, hrows⟩ :=
    b.balances_afterDeeds settings hdeeds
  simp only [hzero, Telemetry.Counters.zero, tally_finds, tally_records, Nat.add_zero, Nat.zero_add]
    at hdocuments hattempts hrecords hamendments hqueries hrows
  refine ⟨hdocuments, by omega, hrecords, fun rs rs' hrs hrs' => ?_, hamendments, hqueries, hrows⟩
  rw [Audit.Trail.length_records hrs, Audit.Trail.length_records hrs']
  exact hrecords

/-- Two companies are created, one of them is renamed and the other one deleted; one query is
answered and one rejected, and one amendment finds its record. The record that is written by hand
comes under an identifier that is taken. -/
theorem counters_balance_collision :
    let b : Book := ⟨.empty, .documents, .zero, [],
      ⟨fun n => ⟨BitVec.ofNat 128 (min n 4)⟩, fun _ => ⟨19844, 36000, 250000000⟩, 0, 0⟩⟩
    let deeds : List Deed :=
      [.call (.createMany companies [.obj [("name", .str "Initech")], .obj []] ⟨99⟩),
        .call (.updateOne companies ⟨0⟩ (.obj [("name", .str "Initrode")]) ⟨99⟩),
        .call (.deleteOne companies ⟨2⟩), .call (.find companies ⟨none, [], .everything⟩),
        .call (.find companies ⟨none, [], ⟨some 0, some 2000⟩⟩),
        .amend ⟨1⟩ ⟨"name", some "Initech", "Initrode"⟩, .amend ⟨0⟩ ⟨"name", none, "Initrode"⟩,
        .record "Company" ⟨0⟩ [] ⟨98⟩ .update]
    let b' := b.afterDeeds .standard deeds
    let n := b'.counters
    (∀ c, Deed.call c ∈ deeds → c.entity ∈ catalog) ∧ n = ⟨1, 1, 1, 2, 1, 1, 3, 1, 1⟩ ∧
      b'.documentCount + n.entitiesDeleted = b.documentCount + n.entitiesCreated ∧
      n.auditRecordsWritten + n.auditWriteFailures =
        n.entitiesCreated + n.entitiesUpdated + deeds.countP Deed.isRecord ∧
      b'.recordCount = b.recordCount + n.auditRecordsWritten ∧
      n.auditAmendments = (b.tally .standard deeds).amendments ∧
      n.queriesExecuted + n.queriesRejected = deeds.countP Deed.isFind ∧
      n.rowsReturned = (b.tally .standard deeds).rows := by
  intro b deeds
  have hdeeds : ∀ c, Deed.call c ∈ deeds → c.entity ∈ catalog := by
    simp [deeds, Call.entity, catalog]
  obtain ⟨hdocuments, hattempts, hrecords, -, hanswers⟩ :=
    counters_balance .standard (b := b) rfl hdeeds
  exact ⟨hdeeds, by decide +kernel, hdocuments, hattempts, hrecords, hanswers⟩

end Book

end Crm

end Clientele
