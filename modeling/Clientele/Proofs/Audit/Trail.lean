import Clientele.Audit.Trail
import Clientele.Proofs.Audit.Record
import Clientele.Proofs.Json.Fields
import Clientele.Proofs.Store.Basic

/-!
A record that a trail takes in comes after the records that are there. In the store nothing changes
but the collection of the records, and that one comes to know the identifier of the record at most.
-/
set_option autoImplicit false

namespace Clientele.Audit

namespace Record

theorem get?_toDocument (r : Record) :
    r.toDocument.get? Path.primaryKey = some r.id.toJson := by
  rw [toDocument, Fields.get?_set, if_pos rfl]

theorem documentId?_toDocument (r : Record) : Store.documentId? r.toDocument = some r.id := by
  rw [Store.documentId?, get?_toDocument, Option.bind_some, Identifier.ofJson?_toJson]

theorem ofDocument?_toDocument {r : Record} (h : r.IsRecorded) :
    ofDocument? r.toDocument = some r := by
  have hfields : (r.toDocument.takeOut Path.primaryKey).set "id" r.id.toJson =
      [("updatedAt", .str r.updatedAt.millis), ("action", .str r.action.name),
        ("targetEntity", .str r.targetEntity), ("targetId", r.targetId.toJson),
        ("changes", .arr (r.changes.map Change.toJson)), ("userId", r.userId.toJson),
        ("createdAt", .str r.createdAt.millis), ("id", r.id.toJson)] := rfl
  simp only [ofDocument?, get?_toDocument, hfields]
  exact ofJsonBy?_of_slots Action.ofJson?_name h rfl

end Record

namespace Trail

variable {t t' : Trail} {s s' : Store} {r : Record}

theorem records_congr (t : Trail)
    (h : s'.collection auditCollection = s.collection auditCollection) :
    t.records s' = t.records s := by
  cases t with
  | documents => simp only [records, h]
  | _ => rfl

theorem records_insert (hr : t = .documents → r.IsRecorded)
    (h : t.insert s r = (.ok (), t', s')) {rs : List Record} (hrs : t.records s = .ok rs) :
    t'.records s' = .ok (rs ++ [r]) := by
  cases t with
  | memory rs' | journal rs' text =>
    cases h
    cases hrs
    rfl
  | documents =>
    simp only [insert] at h
    split at h
    · rename_i hinsert
      cases h
      obtain ⟨c, hc, rfl⟩ := Store.insert_eq_ok hinsert
      obtain ⟨fields, id, hfields, -, -, rfl⟩ := Store.Collection.insert_eq_ok hc
      cases hfields
      have hread : readDocument r.toDocument = .ok r := by
        rw [readDocument, Record.ofDocument?_toDocument (hr rfl)]
        rfl
      simp only [records] at hrs
      simp only [records, Store.collection_put, if_pos, List.mapM_append, hrs]
      rw [List.mapM_cons, List.mapM_nil, hread]
      rfl
    · cases h
  | failing => cases h
  | faulty rs' faults =>
    simp only [insert] at h
    split at h
    · cases h
    · cases h
      cases hrs
      rfl

/-- A trail that refuses no write for a reason of its own. -/
def IsReliable : Trail → Prop
  | memory _ | journal .. | documents => True
  | failing | faulty .. => False

/-- What no record changes: the kind of the trail, and the identifiers that the store knows, but for
the one of the record. -/
theorem insert_frame {answer : Except Error Unit} (h : t.insert s r = (answer, t', s')) :
    (t' = .documents ↔ t = .documents) ∧ (t'.IsReliable ↔ t.IsReliable) ∧
      ∀ name k, (s'.collection name).knows k → (s.collection name).knows k ∨ k = r.id := by
  cases t with
  | memory rs | journal rs text =>
    cases h
    exact ⟨by simp, .rfl, fun _ _ hk => .inl hk⟩
  | documents =>
    simp only [insert] at h
    split at h
    · rename_i hinsert
      cases h
      exact ⟨.rfl, .rfl, fun _ _ hk =>
        Store.knows_of_insert hinsert r.documentId?_toDocument hk⟩
    · rename_i hinsert
      cases h
      refine ⟨.rfl, .rfl, fun name k hk => .inl ?_⟩
      rwa [Store.collection_insert_of_error hinsert] at hk
  | failing =>
    cases h
    exact ⟨.rfl, .rfl, fun _ _ hk => .inl hk⟩
  | faulty rs faults =>
    simp only [insert] at h
    split at h <;> cases h <;> exact ⟨by simp, .rfl, fun _ _ hk => .inl hk⟩

theorem insert_store (ht : t ≠ documents) {answer : Except Error Unit}
    (h : t.insert s r = (answer, t', s')) : s' = s := by
  cases t with
  | memory rs | journal rs text | failing =>
    cases h
    rfl
  | documents => exact absurd rfl ht
  | faulty rs faults =>
    simp only [insert] at h
    split at h <;> cases h <;> rfl

theorem appendChange_store (ht : t ≠ documents) {id : Identifier} {c : Change}
    {time : Time.Instant} {answer : Except Error Record}
    (h : t.appendChange s id c time = (answer, t', s')) : s' = s := by
  cases t with
  | memory rs | journal rs text =>
    simp only [appendChange] at h
    split at h <;> cases h <;> rfl
  | documents => exact absurd rfl ht
  | failing =>
    cases h
    rfl
  | faulty rs faults =>
    simp only [appendChange] at h
    split at h
    · split at h <;> cases h <;> rfl
    · cases h
      rfl

def Spares (t : Trail) (name : String) : Prop := t = .documents → name ≠ auditCollection

theorem collection_insert {answer : Except Error Unit} (h : t.insert s r = (answer, t', s'))
    {name : String} (hname : t.Spares name) : s'.collection name = s.collection name := by
  by_cases ht : t = documents
  · subst ht
    simp only [insert] at h
    split at h
    · rename_i hinsert
      cases h
      obtain ⟨c, -, rfl⟩ := Store.insert_eq_ok hinsert
      rw [Store.collection_put, if_neg (hname rfl).symm]
    · rename_i hinsert
      cases h
      exact Store.collection_insert_of_error hinsert name
  · rw [insert_store ht h]

theorem collection_appendChange {id : Identifier} {c : Change} {time : Time.Instant}
    {answer : Except Error Record} (h : t.appendChange s id c time = (answer, t', s')) {name : String}
    (hname : t.Spares name) : s'.collection name = s.collection name := by
  by_cases ht : t = documents
  · subst ht
    simp only [appendChange] at h
    split at h
    · cases h
      rfl
    · cases h
      rfl
    · split at h
      · rename_i hupdate
        cases h
        obtain ⟨c, -, rfl⟩ := Store.update_eq_some hupdate
        rw [Store.collection_put, if_neg (hname rfl).symm]
      · rename_i hupdate
        cases h
        rw [Store.update_eq_none hupdate]
  · rw [appendChange_store ht h]

theorem insert_eq_ok (ht : t.IsReliable)
    (hknown : (s.collection auditCollection).knows r.id = false) :
    ∃ t' s', t.insert s r = (.ok (), t', s') := by
  cases t with
  | memory rs | journal rs text => exact ⟨_, _, rfl⟩
  | documents =>
    have hinsert := Store.Collection.insert_obj r.documentId?_toDocument hknown auditCollection
    exact ⟨_, _, by simp only [insert, Store.insert, hinsert]; rfl⟩
  | failing | faulty rs faults => exact ht.elim

end Trail

end Clientele.Audit
