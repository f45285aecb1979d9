import Clientele.Proofs.Audit.Trail
import Clientele.Proofs.Json.Record
import Clientele.Proofs.Outcome

/-!
Records as documents. A document that is read as a record is read as the amended record once the
amendment is written over it, whatever else the document holds.
-/
set_option autoImplicit false

namespace Clientele.Audit

namespace Record

def recordFields (doc : Fields) : Fields :=
  match doc.get? Path.primaryKey with
  | some id => (doc.takeOut Path.primaryKey).set "id" id
  | none => doc

variable {doc doc' : Fields} {key : String}

theorem slot?_recordFields (hid : key ≠ "id") (hkey : key ≠ Path.primaryKey) (doc : Fields) :
    (recordFields doc).slot? key = doc.slot? key := by
  rw [recordFields]
  split
  · rw [Fields.slot?_set_of_ne (Ne.symm hid), Fields.slot?_takeOut_of_ne (Ne.symm hkey)]
  · rfl

theorem slot?_recordFields_congr (hid : doc'.get? Path.primaryKey = doc.get? Path.primaryKey)
    (hkey : key ≠ Path.primaryKey) (hslot : doc'.slot? key = doc.slot? key) :
    (recordFields doc').slot? key = (recordFields doc).slot? key := by
  rw [recordFields, recordFields, hid]
  split
  · by_cases h : key = "id"
    · subst h
      rw [Fields.slot?_set_self, Fields.slot?_set_self, Fields.slot?_takeOut_of_ne (Ne.symm hkey),
        Fields.slot?_takeOut_of_ne (Ne.symm hkey), hslot]
    · rw [Fields.slot?_set_of_ne (Ne.symm h), Fields.slot?_set_of_ne (Ne.symm h),
        Fields.slot?_takeOut_of_ne (Ne.symm hkey), Fields.slot?_takeOut_of_ne (Ne.symm hkey), hslot]
  · exact hslot

theorem patched_amendment (doc : Fields) (r : Record) :
    Store.Collection.patched doc (Trail.amendment r) =
      (doc.set "changes" (.arr (r.changes.map Change.toJson))).set "updatedAt"
        (.str r.updatedAt.millis) := rfl

theorem slot?_patched_amendment (hchanges : key ≠ "changes") (hupdated : key ≠ "updatedAt")
    (hkey : key ≠ Path.primaryKey) (doc : Fields) (r : Record) :
    (recordFields (Store.Collection.patched doc (Trail.amendment r))).slot? key =
      (recordFields doc).slot? key := by
  have hfirst : "changes" ≠ Path.primaryKey := by decide
  have hsecond : "updatedAt" ≠ Path.primaryKey := by decide
  rw [patched_amendment]
  refine slot?_recordFields_congr ?_ hkey ?_
  · rw [Fields.get?_set, if_neg hsecond, Fields.get?_set, if_neg hfirst]
  · rw [Fields.slot?_set_of_ne (Ne.symm hupdated), Fields.slot?_set_of_ne (Ne.symm hchanges)]

/-- What the slots hold is read as the fields of a record. -/
structure IsRead (slot? : String → Option (Option Json)) (r : Record) : Prop where
  id : ∃ v, slot? "id" = some (some v) ∧ Identifier.ofJson? v = some r.id
  action : ∃ v, slot? "action" = some (some v) ∧ Action.ofJson? v = some r.action
  targetEntity : ∃ v, slot? "targetEntity" = some (some v) ∧ v.text? = some r.targetEntity
  targetId : ∃ v, slot? "targetId" = some (some v) ∧ Identifier.ofJson? v = some r.targetId
  changes : ∃ v, slot? "changes" = some (some v) ∧ v.listOf? Change.ofJson? = some r.changes
  userId : ∃ v, slot? "userId" = some (some v) ∧ Identifier.ofJson? v = some r.userId
  createdAt : ∃ v, slot? "createdAt" = some (some v) ∧ stamp? v = some r.createdAt
  updatedAt : ∃ v, slot? "updatedAt" = some (some v) ∧ stamp? v = some r.updatedAt

theorem ofJson?_obj_eq_some {fs : Fields} {r : Record} :
    ofJson? (.obj fs) = some r ↔ IsRead fs.slot? r := by
  rw [ofJson?, ofJsonBy?]
  constructor
  · intro h
    split at h
    case h_2 => cases h
    case h_1 hslots =>
      simp only [Json.slots?_obj_eq_some, List.map_cons, List.map_nil, List.cons.injEq, and_true]
        at hslots
      obtain ⟨hid, haction, hentity, htarget, hchanges, huser, hcreated, hupdated⟩ := hslots
      simp only [Option.bind_eq_bind, Option.bind_eq_some_iff, Option.pure_def,
        Option.some.injEq] at h
      obtain ⟨_, hid', _, haction', _, hentity', _, htarget', _, hchanges', _, huser', _, hcreated',
        _, hupdated', rfl⟩ := h
      exact ⟨⟨_, hid, hid'⟩, ⟨_, haction, haction'⟩, ⟨_, hentity, hentity'⟩, ⟨_, htarget, htarget'⟩,
        ⟨_, hchanges, hchanges'⟩, ⟨_, huser, huser'⟩, ⟨_, hcreated, hcreated'⟩,
        ⟨_, hupdated, hupdated'⟩⟩
  · rintro ⟨⟨id, hid, hid'⟩, ⟨action, haction, haction'⟩, ⟨targetEntity, hentity, hentity'⟩,
      ⟨targetId, htarget, htarget'⟩, ⟨changes, hchanges, hchanges'⟩, ⟨userId, huser, huser'⟩,
      ⟨createdAt, hcreated, hcreated'⟩, ⟨updatedAt, hupdated, hupdated'⟩⟩
    have hslots : Json.slots? ["id", "action", "targetEntity", "targetId", "changes", "userId",
        "createdAt", "updatedAt"] (.obj fs) = some [some id, some action, some targetEntity,
          some targetId, some changes, some userId, some createdAt, some updatedAt] := by
      simp only [Json.slots?_obj_eq_some, List.map_cons, List.map_nil, hid, haction, hentity,
        htarget, hchanges, huser, hcreated, hupdated]
    simp only [hslots, hid', haction', hentity', htarget', hchanges', huser', hcreated', hupdated',
      Option.bind_eq_bind, Option.bind_some]
    rfl

theorem ofDocument?_eq_some {r : Record} :
    ofDocument? doc = some r ↔ IsRead (recordFields doc).slot? r :=
  ofJson?_obj_eq_some

theorem id_of_ofDocument? {r : Record} {id : Identifier} (h : ofDocument? doc = some r)
    (hid : Store.documentId? doc = some id) : r.id = id := by
  obtain ⟨v, hv, hread⟩ := (ofDocument?_eq_some.mp h).id
  obtain ⟨w, hw, hkey⟩ := Option.bind_eq_some_iff.mp hid
  simp only [recordFields, hw, Fields.slot?_set_self, Option.map_eq_some_iff] at hv
  obtain ⟨_, -, hvw⟩ := hv
  cases hvw
  exact Option.some.inj (hread.symm.trans hkey)

theorem ofDocument?_patched_changes {r : Record} (h : ofDocument? doc = some r)
    (changes : List Change) {time : Time.Instant} (htime : time.IsRecorded) :
    ofDocument? (Store.Collection.patched doc
        (Trail.amendment { r with changes := changes, updatedAt := time })) =
      some { r with changes := changes, updatedAt := time } := by
  have hread := ofDocument?_eq_some.mp h
  have hkept {key : String} (hc : key ≠ "changes") (hu : key ≠ "updatedAt")
      (hk : key ≠ Path.primaryKey) :=
    slot?_patched_amendment hc hu hk doc { r with changes := changes, updatedAt := time }
  rw [ofDocument?_eq_some]
  refine ⟨?_, ?_, ?_, ?_, ?_, ?_, ?_, ?_⟩
  · rw [hkept (by decide) (by decide) (by decide)]
    exact hread.id
  · rw [hkept (by decide) (by decide) (by decide)]
    exact hread.action
  · rw [hkept (by decide) (by decide) (by decide)]
    exact hread.targetEntity
  · rw [hkept (by decide) (by decide) (by decide)]
    exact hread.targetId
  · obtain ⟨v, hv, -⟩ := hread.changes
    refine ⟨_, ?_, Json.listOf?_map fun c _ => c.ofJson?_toJson⟩
    rw [slot?_recordFields (by decide) (by decide)] at hv ⊢
    rw [patched_amendment, Fields.slot?_set_of_ne (by decide), Fields.slot?_set_self, hv]
    rfl
  · rw [hkept (by decide) (by decide) (by decide)]
    exact hread.userId
  · rw [hkept (by decide) (by decide) (by decide)]
    exact hread.createdAt
  · obtain ⟨v, hv, -⟩ := hread.updatedAt
    refine ⟨_, ?_, stamp?_millis htime⟩
    rw [slot?_recordFields (by decide) (by decide)] at hv ⊢
    rw [patched_amendment, Fields.slot?_set_self, Fields.slot?_set_of_ne (by decide), hv]
    rfl

/-- An amended document is read as the amended record. -/
theorem ofDocument?_patched {r : Record} (h : ofDocument? doc = some r) (c : Change)
    {time : Time.Instant} (htime : time.IsRecorded) :
    ofDocument? (Store.Collection.patched doc (Trail.amendment (r.amend c time))) =
      some (r.amend c time) :=
  ofDocument?_patched_changes h (r.changes ++ [c]) htime

end Record

theorem readDocument_eq_ok {doc : Fields} {r : Record} :
    readDocument doc = .ok r ↔ Record.ofDocument? doc = some r := by
  rw [readDocument]
  cases Record.ofDocument? doc <;> simp

theorem mapM_readDocument_eq_ok {docs : List Fields} {rs : List Record} :
    docs.mapM readDocument = .ok rs ↔ docs.map Record.ofDocument? = rs.map some := by
  induction docs generalizing rs with
  | nil =>
    rw [List.mapM_nil, List.map_nil]
    cases rs <;> simp [pure, Except.pure]
  | cons doc docs ih =>
    rw [List.mapM_cons, List.map_cons]
    constructor
    · intro h
      obtain ⟨r, hr, h⟩ := Except.bind_eq_ok_iff.mp h
      obtain ⟨rest, hrest, h⟩ := Except.bind_eq_ok_iff.mp h
      cases h
      rw [readDocument_eq_ok.mp hr, ih.mp hrest, List.map_cons]
    · intro h
      cases rs with
      | nil => cases h
      | cons r rest =>
        obtain ⟨hr, hrest⟩ := List.cons.inj h
        rw [readDocument_eq_ok.mpr hr, ih.mpr hrest]
        rfl

namespace Trail

variable {s s' : Store} {rs : List Record} {id : Identifier}

theorem records_documents :
    documents.records s = .ok rs ↔
      (s.collection auditCollection).documents.map Record.ofDocument? = rs.map some :=
  mapM_readDocument_eq_ok

theorem get_documents_of_some (hrs : documents.records s = .ok rs) {doc : Fields}
    (hdoc : s.get? auditCollection id = some doc) :
    ∃ i r, (s.collection auditCollection).positions[id]? = some i ∧
      (s.collection auditCollection).documents[i]? = some doc ∧ rs[i]? = some r ∧
      Record.ofDocument? doc = some r ∧ documents.get s id = .ok (some r) := by
  obtain ⟨i, hi, hat⟩ := Option.bind_eq_some_iff.mp hdoc
  have hmap := congrArg (·[i]?) (records_documents.mp hrs)
  simp only [List.getElem?_map, hat, Option.map_some] at hmap
  obtain ⟨r, hr, hread⟩ := Option.map_eq_some_iff.mp hmap.symm
  refine ⟨i, r, hi, hat, hr, hread.symm, ?_⟩
  simp only [get, hdoc, readDocument_eq_ok.mpr hread.symm]
  rfl

theorem get_documents_eq_some {r : Record} :
    documents.get s id = .ok (some r) ↔
      ∃ doc, s.get? auditCollection id = some doc ∧ Record.ofDocument? doc = some r := by
  simp only [get]
  cases s.get? auditCollection id with
  | none => simp
  | some doc =>
    simp only [← readDocument_eq_ok, Option.some.injEq, exists_eq_left']
    cases readDocument doc <;> simp [Except.map]

theorem get_documents_of_insert {r : Record} (hr : r.IsRecorded)
    (h : s.insert auditCollection (.obj r.toDocument) = (.ok (), s')) :
    documents.get s' r.id = .ok (some r) :=
  get_documents_eq_some.mpr ⟨r.toDocument, Store.get?_of_insert h r.documentId?_toDocument,
    Record.ofDocument?_toDocument hr⟩

theorem trail_appendChange_documents (s : Store) (id : Identifier) (c : Change)
    (time : Time.Instant) : (documents.appendChange s id c time).2.1 = documents := by
  simp only [appendChange]
  split
  · rfl
  · rfl
  · split <;> rfl

/-- All that an amendment of records in documents does: it changes one record in its place, or it
finds no record and does nothing. -/
theorem appendChange_documents (hrs : documents.records s = .ok rs) (id : Identifier) (c : Change)
    {time : Time.Instant} (htime : time.IsRecorded) :
    (∃ i r doc s', (s.collection auditCollection).positions[id]? = some i ∧ rs[i]? = some r ∧
      s.update auditCollection id (amendment (r.amend c time)) = (some doc, s') ∧
      documents.appendChange s id c time = (.ok (r.amend c time), documents, s') ∧
      documents.records s' = .ok (rs.set i (r.amend c time))) ∨
    s.get? auditCollection id = none ∧
      documents.appendChange s id c time = (.error (.notFound id), documents, s) := by
  cases hdoc : s.get? auditCollection id with
  | none => exact .inr ⟨rfl, by simp only [appendChange, get, hdoc]⟩
  | some doc =>
    obtain ⟨i, r, hi, hat, hr, hread, hget⟩ := get_documents_of_some hrs hdoc
    have hupdate : (s.collection auditCollection).update id (amendment (r.amend c time)) =
        some (Store.Collection.patched doc (amendment (r.amend c time)),
          { s.collection auditCollection with
            documents := (s.collection auditCollection).documents.set i
              (Store.Collection.patched doc (amendment (r.amend c time))) }) := by
      simp only [Store.Collection.update, hi, hat, Option.bind_some, Option.map_some]
    refine .inl ⟨i, r, _, _, hi, hr, by rw [Store.update, hupdate], ?_, ?_⟩
    · simp only [appendChange, hget, Store.update, hupdate]
    · rw [records_documents] at hrs ⊢
      rw [Store.collection_put, if_pos rfl, List.map_set, hrs, List.map_set,
        Record.ofDocument?_patched hread c htime]

theorem records_insert_of_error {t t' : Trail} {r : Record} {e : Error}
    (h : t.insert s r = (.error e, t', s')) : t'.records s' = t.records s := by
  cases t with
  | memory rs | journal rs text => cases h
  | documents =>
    simp only [insert] at h
    split at h
    · cases h
    · rename_i hinsert
      cases h
      exact records_congr _ (Store.collection_insert_of_error hinsert _)
  | failing =>
    cases h
    rfl
  | faulty rs faults =>
    simp only [insert] at h
    split at h <;> cases h
    rfl

end Trail

end Clientele.Audit
