import Clientele.Crm.Catalog
import Clientele.Crm.Gateway
import Clientele.Proofs.Crm.Book

/-!
All that one write can do to a book: it fails, or it changes one collection, counts and reports
this, and is then recorded.
-/
set_option autoImplicit false

namespace Clientele.Crm

theorem writable_eq_ok {e : Entity} : writable e = .ok () ↔ e.readOnly = false := by
  unfold writable
  cases e.readOnly <;> simp

theorem payload_eq_ok {v : Json} {fields : Fields} :
    payload v = .ok fields ↔
      v = .obj fields ∧ fields.has Path.primaryKey = false ∧ fields.has "id" = false := by
  rw [← Bool.or_eq_false_iff]
  cases v with
  | obj fs =>
    cases hkey : Fields.has fs Path.primaryKey || Fields.has fs "id" with
    | true =>
      simp only [payload, hkey, if_true, reduceCtorEq, Json.obj.injEq, false_iff]
      rintro ⟨rfl, hnone⟩
      cases hkey.symm.trans hnone
    | false =>
      simp only [payload, hkey, Bool.false_eq_true, if_false, Except.ok.injEq, Json.obj.injEq]
      constructor
      · rintro rfl
        exact ⟨rfl, hkey⟩
      · exact And.left
  | _ => simp [payload]

theorem collection_ne_of_mem_catalog {e : Entity} (he : e ∈ catalog) (hw : e.readOnly = false) :
    e.collection ≠ Audit.auditCollection := by
  have hall : catalog.all fun e => e.readOnly || e.collection != Audit.auditCollection := by decide
  have h := List.all_eq_true.mp hall e he
  rw [hw, Bool.false_or] at h
  exact bne_iff_ne.mp h

theorem collection_put_of_mem_catalog {e : Entity} (he : e ∈ catalog) (hw : e.readOnly = false)
    (s : Store) (c : Store.Collection) :
    (s.put e.collection c).collection Audit.auditCollection =
      s.collection Audit.auditCollection := by
  rw [Store.collection_put, if_neg (collection_ne_of_mem_catalog he hw)]

theorem defaults_ne_of_mem_catalog {e : Entity} (he : e ∈ catalog) :
    ∀ f ∈ e.defaults, f.1 ≠ Path.primaryKey := by
  have hall : catalog.all fun e => e.defaults.all fun f => f.1 != Path.primaryKey := by decide
  intro f hf
  exact bne_iff_ne.mp (List.all_eq_true.mp (List.all_eq_true.mp hall e he) f hf)

theorem documentId?_newDocument {e : Entity} {values : Fields} (he : e ∈ catalog)
    (hvalues : values.has Path.primaryKey = false) (id userId : Identifier)
    (time : Time.Instant) :
    Store.documentId? (newDocument e id userId time values) = some id := by
  have hkeys : ∀ f ∈ values, f.1 ≠ Path.primaryKey := by
    rw [Fields.has, Option.isSome_eq_false_iff, Option.isNone_iff_eq_none] at hvalues
    exact Fields.get?_eq_none.mp hvalues
  have himplied : ∀ f ∈ Audit.implied e.defaults values, f.1 ≠ Path.primaryKey :=
    fun f hf => defaults_ne_of_mem_catalog he f (List.mem_filter.mp hf).1
  have hcreatedBy : "createdById" ≠ Path.primaryKey := by decide
  have hcreated : "createdAt" ≠ Path.primaryKey := by decide
  have hupdated : "updatedAt" ≠ Path.primaryKey := by decide
  simp only [Store.documentId?, newDocument, Fields.get?_set, hcreatedBy, hcreated, hupdated,
    if_false]
  rw [Fields.get?_overlay_of_forall_ne hkeys, Fields.get?_overlay_of_forall_ne himplied,
    Fields.get?, if_pos rfl, Option.bind_some, Identifier.ofJson?_toJson]

namespace Book

variable {b : Book} {e : Entity} {userId : Identifier} {store : Store}

def nextDocument (b : Book) (e : Entity) (values : Fields) (userId : Identifier) : Fields :=
  newDocument e (b.supply.id b.supply.idsDrawn) userId
    (b.supply.time b.supply.timesDrawn).toMillisPrecision values

theorem insert_of_error {values : Fields} {err : Store.InsertError}
    (h : b.store.insert e.collection (.obj (b.nextDocument e values userId)) =
      (.error err, store)) :
    b.insert e values userId =
      (.error (.store err), { b with store := store, supply := b.supply.next }) := by
  rw [nextDocument] at h
  simp only [insert, freshId, now, h, Supply.next]

theorem insert_of_ok {values : Fields}
    (h : b.store.insert e.collection (.obj (b.nextDocument e values userId)) = (.ok (), store)) :
    ∃ log, b.insert e values userId =
      match recordIfAudited ⟨store, b.trail,
          { b.counters with entitiesCreated := b.counters.entitiesCreated + 1 }, log,
          b.supply.next⟩ e (b.supply.id b.supply.idsDrawn)
        (Audit.changesWithDefaults e.publicFields e.defaults values) userId .create with
      | (audit, b') => (.ok ⟨b.nextDocument e values userId, audit⟩, b') := by
  rw [nextDocument] at h
  simp only [insert, freshId, now, h]
  exact ⟨_, rfl⟩

/-- An update fails and leaves the book alone, or it writes a stamped patch over a document that is
there. -/
theorem updateOne_cases (b : Book) (e : Entity) (id : Identifier) (patch : Json)
    (userId : Identifier) :
    (∃ err, b.updateOne e id patch userId = (.error err, b)) ∨
    ∃ fields previous store log, e.readOnly = false ∧ payload patch = .ok fields ∧
      b.store.get? e.collection id = some previous ∧
      let effective := effectivePatch e previous fields
      let written := stamped effective userId
        (b.supply.time b.supply.timesDrawn).toMillisPrecision
      b.store.update e.collection id written =
        (some (Store.Collection.patched previous written), store) ∧
      b.updateOne e id patch userId =
        match recordIfAudited ⟨store, b.trail,
            { b.counters with entitiesUpdated := b.counters.entitiesUpdated + 1 }, log,
            { b.supply with timesDrawn := b.supply.timesDrawn + 1 }⟩ e id
          (Audit.changesOnUpdate e.publicFields (some (.obj previous)) effective) userId
          .update with
        | (audit, b') => (.ok ⟨Store.Collection.patched previous written, audit⟩, b') := by
  unfold updateOne
  split
  · exact .inl ⟨_, rfl⟩
  · exact .inl ⟨_, rfl⟩
  · rename_i fields hwritable hpayload
    split
    · exact .inl ⟨_, rfl⟩
    · rename_i previous hprevious
      obtain ⟨store, hupdate⟩ := Store.update_of_get? hprevious
        (stamped (effectivePatch e previous fields) userId
          (b.supply.time b.supply.timesDrawn).toMillisPrecision)
      simp only [Book.patch, now, hupdate]
      exact .inr ⟨fields, previous, store, _, writable_eq_ok.mp hwritable, hpayload, hprevious,
        hupdate, rfl⟩

/-- A deletion fails and leaves the book alone, or it takes out a document. -/
theorem deleteOne_cases (b : Book) (e : Entity) (id : Identifier) :
    (∃ err, b.deleteOne e id = (.error err, b)) ∨
    ∃ node store log, e.readOnly = false ∧
      b.store.delete e.collection id = (some node, store) ∧
      b.deleteOne e id = (.ok node, ⟨store, b.trail,
        { b.counters with entitiesDeleted := b.counters.entitiesDeleted + 1 }, log,
        b.supply⟩) := by
  unfold deleteOne
  split
  · exact .inl ⟨_, rfl⟩
  · rename_i hwritable
    split
    · exact .inl ⟨_, rfl⟩
    · rename_i node store hdelete
      exact .inr ⟨node, store, _, writable_eq_ok.mp hwritable, hdelete, rfl⟩

end Book

end Clientele.Crm
