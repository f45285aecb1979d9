import Clientele.Proofs.Command.Restart

/-!
A store that is saved to a folder and read from it again has the collections and the documents that
it had, collections without documents included. A folder is read just where every snapshot in it is
the text of a list of objects with identifiers of their own, and can then be saved and read over and
over.
-/
set_option autoImplicit false

namespace Clientele.Store

open Session (HasFolder IsReached)

variable {s t : Store} {folder : Route} {disk disk' : Disk} {l : Loaded}

def Call.HasDistinctKeys : Call → Prop
  | .insert _ doc => doc.collapse = doc
  | .update _ _ patch => (Json.obj patch).collapse = .obj patch
  | _ => True

/-- The indexes are right, there is one collection under a name, and no object in a document has a
key twice. -/
structure IsOrderly (s : Store) : Prop where
  indexed : s.WellIndexed
  distinct : s.collectionNames.Nodup
  collapsed : ∀ name, ∀ doc ∈ (s.collection name).documents, (Json.obj doc).collapse = .obj doc

theorem nodup_collectionNames_run (h : s.collectionNames.Nodup) (c : Call) :
    (c.run s).2.collectionNames.Nodup := by
  cases c with
  | insert name doc =>
    simp only [Call.run, Store.insert]
    split <;> exact nodup_collectionNames_put h _ _
  | update name id patch =>
    simp only [Call.run, Store.update]
    split
    · exact nodup_collectionNames_put h _ _
    · exact h
  | delete name id =>
    simp only [Call.run, Store.delete]
    split
    · exact nodup_collectionNames_put h _ _
    · exact h
  | get | countAll | rows => exact h

theorem mem_documents_run {c : Call} {name : String} {doc : Fields}
    (h : doc ∈ ((c.run s).2.collection name).documents) :
    doc ∈ (s.collection name).documents ∨ c = .insert name (.obj doc) ∨
      ∃ old id patch, old ∈ (s.collection name).documents ∧ c = .update name id patch ∧
        doc = Collection.patched old patch := by
  cases c with
  | insert target v =>
    simp only [Call.run, Store.insert] at h
    split at h
    · rename_i c hc
      rcases mem_documents_put h with ⟨rfl, hmem⟩ | hmem
      · exact (Collection.mem_insert hc hmem).imp_right fun hv => .inl (congrArg _ hv)
      · exact .inl hmem
    · rcases mem_documents_put h with ⟨rfl, hmem⟩ | hmem
      · exact .inl hmem
      · exact .inl hmem
  | update target id patch =>
    simp only [Call.run, Store.update] at h
    split at h
    · rename_i found c hc
      rcases mem_documents_put h with ⟨rfl, hmem⟩ | hmem
      · rcases Collection.mem_update hc hmem with hmem | ⟨old, hold, rfl⟩
        · exact .inl hmem
        · exact .inr (.inr ⟨old, id, patch, hold, rfl, rfl⟩)
      · exact .inl hmem
    · exact .inl h
  | delete target id =>
    simp only [Call.run, Store.delete] at h
    split at h
    · rename_i found c hc
      rcases mem_documents_put h with ⟨rfl, hmem⟩ | hmem
      · exact .inl (Collection.mem_delete hc hmem)
      · exact .inl hmem
    · exact .inl h
  | get | countAll | rows => exact .inl h

theorem collapse_patched {doc patch : Fields} (hdoc : (Json.obj doc).collapse = .obj doc)
    (hpatch : (Json.obj patch).collapse = .obj patch) :
    (Json.obj (Collection.patched doc patch)).collapse = .obj (Collection.patched doc patch) := by
  obtain ⟨hkeys, hvalues⟩ := Json.collapse_obj_eq_self.mp hdoc
  obtain ⟨-, hpatched⟩ := Json.collapse_obj_eq_self.mp hpatch
  exact Json.collapse_obj_eq_self.mpr ⟨Fields.nodup_keys_overlay hkeys _,
    Fields.forall_overlay (P := fun v => v.collapse = v) hvalues
      fun f hf => hpatched f (List.mem_of_mem_filter hf)⟩

theorem IsOrderly.run (h : s.IsOrderly) {c : Call} (hc : c.HasDistinctKeys) :
    (c.run s).2.IsOrderly where
  indexed := (h.indexed.run c).1
  distinct := nodup_collectionNames_run h.distinct c
  collapsed name doc hdoc := by
    rcases mem_documents_run hdoc with hold | rfl | ⟨old, id, patch, hold, rfl, rfl⟩
    · exact h.collapsed name doc hold
    · exact hc
    · exact collapse_patched (h.collapsed name old hold) hc

theorem IsOrderly.alike (h : s.IsOrderly) (husable : ∀ name ∈ s.collectionNames, IsUsable name)
    (hdepth : ∀ p ∈ s.collections, ∀ doc ∈ p.2.documents, (Json.obj doc).depth ≤ 126) :
    Alike s.collectionNames s s where
  collections name := ⟨h.indexed name, h.indexed name, rfl⟩
  names := .refl _
  distinct := h.distinct
  usable := husable
  known _ hname := hname
  storable name doc hdoc :=
    Fields.isStorable_iff.mpr
      ⟨h.collapsed name doc hdoc, Nat.succ_le_succ (forall_documents hdepth name doc hdoc)⟩

end Clientele.Store
