import Clientele.Proofs.Audit.Document
import Clientele.Proofs.Store.OrderedMap

/-!
Records that stand in the store as they were written: the documents are those of the records, one
for one, and the index knows where each of them is. An amendment writes over a document what makes
it the document of the amended record.
-/
set_option autoImplicit false

namespace Clientele.Audit

/-- The documents of the trail are those of the records, in their order. -/
structure Written (s : Store) (rs : List Record) : Prop where
  documents : (s.collection auditCollection).documents = rs.map Record.toDocument
  recorded : ∀ r ∈ rs, r.IsRecorded
  indexed : (s.collection auditCollection).WellIndexed

theorem Record.patched_toDocument (r : Record) (c : Change) (time : Time.Instant) :
    Store.Collection.patched r.toDocument (Trail.amendment (r.amend c time)) =
      (r.amend c time).toDocument := rfl

namespace Written

variable {s s' : Store} {rs : List Record} {r : Record}

theorem empty : Written .empty [] := ⟨rfl, by simp, Store.wellIndexed_empty _⟩

theorem congr (h : Written s rs)
    (hsame : s'.collection auditCollection = s.collection auditCollection) : Written s' rs :=
  ⟨hsame ▸ h.documents, h.recorded, hsame ▸ h.indexed⟩

theorem records (h : Written s rs) : Trail.documents.records s = .ok rs := by
  rw [Trail.records_documents, h.documents, List.map_map]
  refine List.map_congr_left fun r hr => ?_
  rw [Function.comp_apply, Record.ofDocument?_toDocument (h.recorded r hr)]

theorem nodup_ids (h : Written s rs) : (rs.map (·.id)).Nodup := by
  have hid : Store.documentId? ∘ Record.toDocument = some ∘ (·.id) := by
    funext r
    rw [Function.comp_apply, r.documentId?_toDocument, Function.comp_apply]
  have hids : (rs.map Record.toDocument).filterMap Store.documentId? = rs.map (·.id) := by
    rw [List.filterMap_map, hid, List.filterMap_eq_map]
  rw [← hids, ← h.documents]
  exact h.indexed.nodup_ids

theorem get? (h : Written s rs) (hr : r ∈ rs) : s.get? auditCollection r.id = some r.toDocument := by
  have hdoc : r.toDocument ∈ (s.collection auditCollection).documents :=
    h.documents ▸ List.mem_map_of_mem hr
  exact h.indexed.get?_of_mem hdoc r.documentId?_toDocument

theorem insert (h : Written s rs) (hr : r.IsRecorded) {answer : Except Error Unit} {t : Trail}
    (hinsert : Trail.documents.insert s r = (answer, t, s')) : ∃ rs', Written s' rs' := by
  simp only [Trail.insert] at hinsert
  split at hinsert
  · rename_i hstore
    cases hinsert
    obtain ⟨c, hc, rfl⟩ := Store.insert_eq_ok hstore
    have hindexed := h.indexed.of_insert hc
    obtain ⟨fields, id, hfields, -, -, rfl⟩ := Store.Collection.insert_eq_ok hc
    cases hfields
    refine ⟨rs ++ [r], ?_, ?_, ?_⟩
    · rw [Store.collection_put, if_pos rfl, h.documents, List.map_append]
      rfl
    · intro r' hr'
      rcases List.mem_append.mp hr' with hr' | hr'
      · exact h.recorded r' hr'
      · rwa [List.mem_singleton.mp hr']
    · rwa [Store.collection_put, if_pos rfl]
  · rename_i hstore
    cases hinsert
    exact ⟨rs, h.congr (Store.collection_insert_of_error hstore _)⟩

theorem appendChange (h : Written s rs) {time : Time.Instant} (htime : time.IsRecorded)
    {id : Identifier} {change : Change} {answer : Except Error Record} {t : Trail}
    (happend : Trail.documents.appendChange s id change time = (answer, t, s')) :
    ∃ rs', Written s' rs' := by
  rcases Trail.appendChange_documents h.records id change htime with
    ⟨i, r, doc, s₁, hi, hr, hupdate, hrun, -⟩ | ⟨-, hrun⟩
  · cases happend.symm.trans hrun
    obtain ⟨c, hc, rfl⟩ := Store.update_eq_some hupdate
    have hindexed := (h.indexed.update_of_some hc).1
    obtain ⟨j, old, hj, hold, -, rfl⟩ := Store.Collection.update_eq_some hc
    cases hi.symm.trans hj
    have hdoc : old = r.toDocument := by
      rw [h.documents, List.getElem?_map, hr] at hold
      exact (Option.some.inj hold).symm
    refine ⟨rs.set i (r.amend change time), ?_, ?_, ?_⟩
    · rw [Store.collection_put, if_pos rfl, List.map_set, hdoc, Record.patched_toDocument, h.documents]
    · intro r' hr'
      rcases List.mem_or_eq_of_mem_set hr' with hr' | rfl
      · exact h.recorded r' hr'
      · exact ⟨(h.recorded r (List.mem_of_getElem? hr)).createdAt, htime⟩
    · rwa [Store.collection_put, if_pos rfl]
  · cases happend.symm.trans hrun
    exact ⟨rs, h⟩

end Written

end Clientele.Audit
