import Clientele.Proofs.Json.Storable
import Clientele.Proofs.Store.OrderedMap
import Clientele.Proofs.Files.Route

/-!
Stores that hold the same documents, whatever order their collections are in and however their
indexes were built. Every call answers alike on them and leaves them alike.
-/
set_option autoImplicit false

namespace Clientele.Store

def collectionNames (s : Store) : List String := s.collections.map (·.1)

/-- A name that the file of a collection can carry. -/
structure IsUsable (name : String) : Prop where
  nonempty : name ≠ ""
  part : Route.IsPart name

variable {s s' : Store} {name : String}

theorem collection?_eq_none : s.collection? name = none ↔ name ∉ s.collectionNames := by
  simp only [collection?, collectionNames, Option.map_eq_none_iff, List.find?_eq_none, beq_iff_eq,
    List.mem_map, Prod.exists, exists_and_right, exists_eq_right, not_exists, Prod.forall]
  exact ⟨fun h c hc => h name c hc rfl, fun h n c hc heq => h c (heq ▸ hc)⟩

theorem collection_of_not_mem (h : name ∉ s.collectionNames) : s.collection name = .empty := by
  rw [collection, collection?_eq_none.mpr h]
  rfl

theorem forall_documents {P : Fields → Prop}
    (h : ∀ p ∈ s.collections, ∀ doc ∈ p.2.documents, P doc) (name : String) :
    ∀ doc ∈ (s.collection name).documents, P doc := by
  rw [collection, collection?]
  cases hfind : s.collections.find? (·.1 == name) with
  | none => exact fun _ hnil => absurd hnil List.not_mem_nil
  | some p => exact h p (List.mem_of_find?_eq_some hfind)

theorem collectionNames_put (s : Store) (name : String) (c : Collection) :
    (s.put name c).collectionNames =
      if name ∈ s.collectionNames then s.collectionNames else s.collectionNames ++ [name] := by
  unfold put
  split
  · rename_i hthere
    have hmem : name ∈ s.collectionNames := by
      by_contra hmissing
      rw [collection?_eq_none.mpr hmissing] at hthere
      cases hthere
    rw [if_pos hmem, collectionNames, collectionNames, List.map_map]
    refine List.map_congr_left fun p _ => ?_
    rw [Function.comp_apply]
    split
    · rename_i hp
      exact (beq_iff_eq.mp hp).symm
    · rfl
  · rename_i hmissing
    rw [if_neg (collection?_eq_none.mp (Option.not_isSome_iff_eq_none.mp hmissing)),
      collectionNames, List.map_append]
    rfl

theorem nodup_collectionNames_put (h : s.collectionNames.Nodup) (name : String) (c : Collection) :
    (s.put name c).collectionNames.Nodup := by
  rw [collectionNames_put]
  split
  · exact h
  · rename_i hnew
    exact List.nodup_append.mpr ⟨h, List.pairwise_singleton _ _, fun n hn m hm heq =>
      hnew (List.mem_singleton.mp hm ▸ heq ▸ hn)⟩

structure Collection.Alike (c c' : Collection) : Prop where
  indexed : c.WellIndexed
  indexed' : c'.WellIndexed
  documents : c'.documents = c.documents

namespace Collection.Alike

variable {c c' : Collection} {id : Identifier}

theorem entries (h : c.Alike c') : c'.entries = c.entries := congrArg keyedDocuments h.documents

theorem of_entries (h : c.WellIndexed) (h' : c'.WellIndexed) (hentries : c'.entries = c.entries) :
    c.Alike c' :=
  ⟨h, h', by rw [← h.snd_entries, ← h'.snd_entries, hentries]⟩

theorem get? (h : c.Alike c') (id : Identifier) : c'.get? id = c.get? id := by
  rw [h.indexed'.get?_eq_lookup, h.indexed.get?_eq_lookup, h.entries]

theorem insert (h : c.Alike c') (name : String) (v : Json) :
    Except.Agree Alike (c.insert name v) (c'.insert name v) := by
  have hentries := h.indexed.entries_insert name v
  have hentries' := h.indexed'.entries_insert name v
  rw [h.entries, hentries] at hentries'
  cases hc : c.insert name v with
  | error e =>
    rw [hc] at hentries'
    rw [Except.map_eq_error_iff.mp hentries'.symm]
    exact .error e
  | ok c₁ =>
    rw [hc] at hentries'
    obtain ⟨c₁', hc', heq⟩ := Except.map_eq_ok_iff.mp hentries'.symm
    rw [hc']
    exact .ok (of_entries (h.indexed.of_insert hc) (h.indexed'.of_insert hc') heq)

theorem update (h : c.Alike c') (id : Identifier) (patch : Fields) :
    (c.update id patch = none ∧ c'.update id patch = none) ∨
    ∃ doc c₁ c₁', c.update id patch = some (doc, c₁) ∧ c'.update id patch = some (doc, c₁') ∧
      c₁.Alike c₁' := by
  cases hget : c.get? id with
  | none =>
    have hnone {d : Collection} (hd : d.get? id = none) : d.update id patch = none := by
      by_contra hsome
      obtain ⟨⟨doc, d'⟩, hupdate⟩ := Option.ne_none_iff_exists'.mp hsome
      have hthere := isSome_get?_of_update hupdate id
      rw [hd, get?_of_update hupdate] at hthere
      cases hthere
    exact .inl ⟨hnone hget, hnone ((h.get? id).trans hget)⟩
  | some old =>
    obtain ⟨c₁, hc⟩ := update_of_get? hget patch
    obtain ⟨c₁', hc'⟩ := update_of_get? ((h.get? id).trans hget) patch
    obtain ⟨hindexed, hentries, -⟩ := h.indexed.update_of_some hc
    obtain ⟨hindexed', hentries', -⟩ := h.indexed'.update_of_some hc'
    rw [h.entries, ← hentries] at hentries'
    exact .inr ⟨_, c₁, c₁', hc, hc', of_entries hindexed hindexed' hentries'⟩

theorem delete (h : c.Alike c') (id : Identifier) :
    (c.delete id = none ∧ c'.delete id = none) ∨
    ∃ doc c₁ c₁', c.delete id = some (doc, c₁) ∧ c'.delete id = some (doc, c₁') ∧
      c₁.Alike c₁' := by
  cases hget : c.get? id with
  | none =>
    have hnone {d : Collection} (hd : d.get? id = none) : d.delete id = none := by
      by_contra hsome
      obtain ⟨⟨doc, d'⟩, hdelete⟩ := Option.ne_none_iff_exists'.mp hsome
      cases hd.symm.trans (get?_of_delete hdelete)
    exact .inl ⟨hnone hget, hnone ((h.get? id).trans hget)⟩
  | some old =>
    obtain ⟨c₁, hc⟩ := delete_of_get? hget
    obtain ⟨c₁', hc'⟩ := delete_of_get? ((h.get? id).trans hget)
    obtain ⟨hindexed, hentries, -⟩ := h.indexed.delete_of_some hc
    obtain ⟨hindexed', hentries', -⟩ := h.indexed'.delete_of_some hc'
    rw [h.entries, ← hentries] at hentries'
    exact .inr ⟨_, c₁, c₁', hc, hc', of_entries hindexed hindexed' hentries'⟩

end Collection.Alike

/-- The same collections with the same documents. All of them can be written to files and read from
them again, and the files that are there already are of collections among them. -/
structure Alike (files : List String) (s s' : Store) : Prop where
  collections : ∀ name, (s.collection name).Alike (s'.collection name)
  names : s'.collectionNames.Perm s.collectionNames
  distinct : s.collectionNames.Nodup
  usable : ∀ name ∈ s.collectionNames, IsUsable name
  known : ∀ name ∈ files, name ∈ s.collectionNames
  storable : ∀ name, ∀ doc ∈ (s.collection name).documents, doc.IsStorable

namespace Alike

variable {files : List String}

theorem left (h : Alike files s s') : Alike files s s :=
  ⟨fun name => ⟨(h.collections name).indexed, (h.collections name).indexed, rfl⟩, .refl _,
    h.distinct, h.usable, h.known, h.storable⟩

theorem rows (h : Alike files s s') : s'.rows = s.rows := by
  funext name
  rw [Store.rows, Store.rows, Collection.rows, Collection.rows, (h.collections name).documents]

theorem get? (h : Alike files s s') (name : String) (id : Identifier) :
    s'.get? name id = s.get? name id := (h.collections name).get? id

theorem put (h : Alike files s s') {c c' : Collection} (hc : c.Alike c') (hname : IsUsable name)
    (hdocs : ∀ doc ∈ c.documents, doc.IsStorable) :
    Alike files (s.put name c) (s'.put name c') where
  collections other := by
    rw [collection_put, collection_put]
    split
    · exact hc
    · exact h.collections other
  names := by
    rw [collectionNames_put, collectionNames_put]
    by_cases hmem : name ∈ s.collectionNames
    · rw [if_pos hmem, if_pos (h.names.mem_iff.mpr hmem)]
      exact h.names
    · rw [if_neg hmem, if_neg fun hmem' => hmem (h.names.mem_iff.mp hmem')]
      exact h.names.append_right _
  distinct := nodup_collectionNames_put h.distinct name c
  usable := by
    rw [collectionNames_put]
    split
    · exact h.usable
    · exact List.forall_mem_append.mpr ⟨h.usable, by simpa using hname⟩
  known n hn := by
    rw [collectionNames_put]
    split
    · exact h.known n hn
    · exact List.mem_append_left _ (h.known n hn)
  storable other := by
    rw [collection_put]
    split
    · exact hdocs
    · exact h.storable other

theorem insert (h : Alike files s s') (hname : IsUsable name) {doc : Fields}
    (hdoc : doc.IsStorable) :
    ∃ answer t t', s.insert name (.obj doc) = (answer, t) ∧
      s'.insert name (.obj doc) = (answer, t') ∧ Alike files t t' := by
  have hinsert := (h.collections name).insert name (.obj doc)
  unfold Store.insert
  generalize hc : (s.collection name).insert name (.obj doc) = r at hinsert
  generalize (s'.collection name).insert name (.obj doc) = r' at hinsert
  cases hinsert with
  | error e =>
    exact ⟨_, _, _, rfl, rfl, h.put (h.collections name) hname (h.storable name)⟩
  | ok halike =>
    refine ⟨_, _, _, rfl, rfl, h.put halike hname fun d hd => ?_⟩
    rcases Collection.mem_insert hc hd with hd | heq
    · exact h.storable name d hd
    · cases heq
      exact hdoc

theorem update (h : Alike files s s') (hname : IsUsable name) (id : Identifier) {patch : Fields}
    (hpatch : ∀ f ∈ patch, f.2.IsStorable) :
    ∃ doc t t', s.update name id patch = (doc, t) ∧ s'.update name id patch = (doc, t') ∧
      Alike files t t' := by
  unfold Store.update
  rcases (h.collections name).update id patch with
    ⟨hnone, hnone'⟩ | ⟨doc, c, c', hc, hc', halike⟩
  · rw [hnone, hnone']
    exact ⟨none, s, s', rfl, rfl, h⟩
  · rw [hc, hc']
    refine ⟨some doc, _, _, rfl, rfl, h.put halike hname fun d hd => ?_⟩
    rcases Collection.mem_update hc hd with hd | ⟨old, hold, rfl⟩
    · exact h.storable name d hd
    · exact (h.storable name old hold).overlay
        fun f hf => hpatch f (List.mem_of_mem_filter hf)

theorem delete (h : Alike files s s') (hname : IsUsable name) (id : Identifier) :
    ∃ doc t t', s.delete name id = (doc, t) ∧ s'.delete name id = (doc, t') ∧
      Alike files t t' := by
  unfold Store.delete
  rcases (h.collections name).delete id with
    ⟨hnone, hnone'⟩ | ⟨doc, c, c', hc, hc', halike⟩
  · rw [hnone, hnone']
    exact ⟨none, s, s', rfl, rfl, h⟩
  · rw [hc, hc']
    refine ⟨some doc, _, _, rfl, rfl, h.put halike hname fun d hd => ?_⟩
    exact h.storable name d (Collection.mem_delete hc hd)

end Alike

end Clientele.Store
