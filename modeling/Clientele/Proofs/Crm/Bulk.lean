import Mathlib.Data.List.Forall2
import Clientele.Proofs.Crm.Atomicity

/-!
Bulk writes. They go through the documents that a query with the same filter shows, in its order,
and leave all others as they are. Each document is written as it would be alone: the documents are
chosen before the first of them is written, and under distinct identifiers, so no write meets
another.
-/
set_option autoImplicit false

namespace Clientele

namespace Query

def Stage.source? : Stage → Option String
  | .lookup l => some l.source
  | _ => none

variable {stored stored' : String → List Json}

theorem Stage.extend_congr {stage : Stage}
    (h : ∀ name, stage.source? = some name → stored' name = stored name) (doc : Json) :
    stage.extend stored' doc = stage.extend stored doc := by
  cases stage with
  | lookup l => rw [extend, extend, h l.source rfl]
  | _ => rfl

theorem related_congr {relations : Pipeline}
    (h : ∀ stage ∈ relations, ∀ name, stage.source? = some name → stored' name = stored name)
    (doc : Json) : related stored' relations doc = related stored relations doc := by
  induction relations generalizing doc with
  | nil => rfl
  | cons stage relations ih =>
    rw [List.forall_mem_cons] at h
    have hstage := stage.extend_congr h.1 doc
    simp only [related, List.foldl_cons, hstage] at ih ⊢
    exact ih h.2 _

end Query

namespace Crm

theorem source?_ne_of_mem_catalog {e : Entity} (he : e ∈ catalog) {stage : Query.Stage}
    (hstage : stage ∈ e.relations) : stage.source? ≠ some e.collection := by
  have hall : catalog.all fun e => e.relations.all fun stage =>
      stage.source? != some e.collection := by decide +kernel
  exact bne_iff_ne.mp (List.all_eq_true.mp (List.all_eq_true.mp hall e he) stage hstage)

namespace Book

variable {b b' : Book} {e : Entity} {filter : Option Filter.Tree} {p : Filter.Predicate}

theorem admits_congr (he : e ∈ catalog) (h : ∀ name, name ≠ e.collection →
      b'.store.collection name = b.store.collection name) (p : Filter.Predicate) :
    b'.admits e p = b.admits e p := by
  funext doc
  have hsources : ∀ stage ∈ e.relations, ∀ name, stage.source? = some name →
      b'.store.rows name = b.store.rows name := by
    intro stage hstage name hname
    have hne : name ≠ e.collection := fun heq =>
      source?_ne_of_mem_catalog he hstage (hname.trans (congrArg some heq))
    rw [Store.rows, h name hne, Store.rows]
  rw [admits, Query.related_congr hsources, admits]

theorem find_unpaged (he : e ∈ catalog) (hp : Filter.compileOptional filter = .ok p) (b : Book)
    (settings : Settings) (sorting : Query.SortRequest) :
    ∃ page, (b.find settings e ⟨filter, sorting, .everything⟩).1 = .ok page ∧
      StablySorted (Query.compareBy sorting.compile)
        ((b.admitted e p).map fun doc => Query.related b.store.rows e.relations (.obj doc))
        page.nodes ∧
      page.totalCount = (b.admitted e p).length ∧ page.pageInfo = ⟨false, false⟩ := by
  have hanswer : Query.Answers b.store e.collection e.relations settings.maxLimit
      ⟨filter, sorting, .everything⟩ _ :=
    Query.answers_execute fun stage hs => (relations_of_mem_catalog he stage hs).1
  generalize hrun : Query.execute b.store e.collection ⟨filter, sorting, .everything⟩ e.relations
    settings.maxLimit = answer at hanswer
  cases hanswer with
  | unreadable hfilter => cases hfilter.symm.trans hp
  | tooLarge _ hlimit _ => cases hlimit
  | page hfilter hoffset hlimit _ hsorted =>
    cases hfilter.symm.trans hp
    subst hoffset hlimit
    rw [found_eq_map_admitted] at hsorted
    rw [find, hrun]
    exact ⟨_, rfl, hsorted, by rw [found_eq_map_admitted, List.length_map], rfl⟩

theorem find_everything (he : e ∈ catalog) (hp : Filter.compileOptional filter = .ok p) (b : Book)
    (settings : Settings) :
    ∃ page, (b.find settings e ⟨filter, [], .everything⟩).1 = .ok page ∧
      page.nodes = (b.admitted e p).map fun doc =>
        Query.related b.store.rows e.relations (.obj doc) := by
  obtain ⟨page, hpage, hsorted, -⟩ := find_unpaged he hp b settings []
  exact ⟨page, hpage, Query.stablySorted_nil_iff.mp hsorted⟩

theorem rowIds_of_admitted (he : e ∈ catalog) (h : (b.store.collection e.collection).WellIndexed)
    (p : Filter.Predicate) :
    ((b.admitted e p).map fun doc => Query.related b.store.rows e.relations (.obj doc)).map rowId? =
      ((b.admitted e p).filterMap Store.documentId?).map some := by
  have hkeyed : ∀ doc ∈ b.admitted e p, (Store.documentId? doc).isSome := fun doc hdoc =>
    h.keyed doc (List.mem_of_mem_filter hdoc)
  rw [List.map_map]
  generalize b.admitted e p = docs at hkeyed
  induction docs with
  | nil => rfl
  | cons doc docs ih =>
    rw [List.forall_mem_cons] at hkeyed
    obtain ⟨id, hid⟩ := Option.isSome_iff_exists.mp hkeyed.1
    rw [List.map_cons, List.filterMap_cons_some hid, List.map_cons, ih hkeyed.2, Function.comp_apply,
      rowId?_related he, hid]

theorem each_cons_eq_ok {α β : Type} {f : Book → α → Except Error β × Book} {x : α} {xs : List α}
    {ys : List β} (h : b.each f (x :: xs) = (.ok ys, b')) :
    ∃ y b₁ rest, f b x = (.ok y, b₁) ∧ b₁.each f xs = (.ok rest, b') ∧ ys = y :: rest := by
  rw [each] at h
  split at h
  · cases h
  · rename_i y b₁ hstep
    rcases hrest : b₁.each f xs with ⟨answer, b₂⟩
    simp only [hrest, Prod.mk.injEq] at h
    obtain ⟨hys, rfl⟩ := h
    obtain ⟨rest, rfl, rfl⟩ := Except.map_eq_ok_iff.mp hys
    exact ⟨y, b₁, rest, hstep, hrest, rfl⟩

/-- A document, or what has been written under its identifier. -/
def rewritten (written : List (Identifier × Fields)) (doc : Fields) : Fields :=
  ((Store.documentId? doc).bind fun id => written.lookup id).getD doc

theorem rewritten_cons {id : Identifier} {node : Fields} {written : List (Identifier × Fields)}
    (hid : Store.documentId? node = some id) (hnew : written.lookup id = none) (doc : Fields) :
    rewritten written (if Store.documentId? doc = some id then node else doc) =
      rewritten ((id, node) :: written) doc := by
  split
  · rename_i hdoc
    simp [rewritten, hid, hdoc, hnew]
  · rename_i hdoc
    cases hother : Store.documentId? doc with
    | none => simp [rewritten, hother]
    | some other =>
      have hne : (other == id) = false := beq_eq_false_iff_ne.mpr fun heq => hdoc (heq ▸ hother)
      simp [rewritten, hother, List.lookup_cons, hne]

theorem lookup_zip_of_not_mem {ids : List Identifier} {id : Identifier} (h : id ∉ ids)
    (nodes : List Fields) : (ids.zip nodes).lookup id = none := by
  refine List.lookup_eq_none_iff.mpr fun entry hentry => bne_iff_ne.mpr ?_
  rintro rfl
  exact h (List.of_mem_zip hentry).1

def clockAt (b : Book) (n : Nat) : Book := { b with supply := { b.supply with timesDrawn := n } }

/-- What an update of the documents under some identifiers comes to. -/
structure UpdatesAll (b : Book) (e : Entity) (ids : List Identifier) (patch : Json)
    (userId : Identifier) (ms : List Mutation) (b' : Book) : Prop where
  alone : List.Forall₂ (fun id m => ∃ n, b.supply.timesDrawn ≤ n ∧
    ((b.clockAt n).updateOne e id patch userId).1.map (·.node) = .ok m.node) ids ms
  documents : (b'.store.collection e.collection).documents =
    (b.store.collection e.collection).documents.map (rewritten (ids.zip (ms.map (·.node))))
  others : ∀ name, name ≠ e.collection → b.trail.Spares name →
    b'.store.collection name = b.store.collection name

section

variable {patch : Json} {fields : Fields} {userId : Identifier}

theorem node_updateOne (he : e ∈ catalog) (hw : e.readOnly = false) {id : Identifier}
    {previous : Fields} (hprevious : b.store.get? e.collection id = some previous)
    (hpatch : payload patch = .ok fields) (userId : Identifier) (n : Nat) :
    ((b.clockAt n).updateOne e id patch userId).1.map (·.node) =
      .ok (updatedDocument e previous fields userId (b.supply.time n).toMillisPrecision) := by
  obtain ⟨m, b', _, hrun, hnode, -⟩ :=
    updateOne_eq_ok (b := b.clockAt n) he hw hprevious hpatch userId
  rw [hrun]
  exact congrArg Except.ok hnode

theorem each_updateOne (he : e ∈ catalog) (hw : e.readOnly = false)
    (hpatch : payload patch = .ok fields) {ids : List Identifier} {ms : List Mutation}
    (hindex : (b.store.collection e.collection).WellIndexed) (hnodup : ids.Nodup)
    (hids : ∀ id ∈ ids, (b.store.get? e.collection id).isSome)
    (hrun : b.each (fun b id => b.updateOne e id patch userId) ids = (.ok ms, b')) :
    List.Forall₂ (fun id m => ∃ previous n, b.store.get? e.collection id = some previous ∧
      b.supply.timesDrawn ≤ n ∧ m.node = updatedDocument e previous fields userId
        (b.supply.time n).toMillisPrecision) ids ms ∧
    (b'.store.collection e.collection).documents =
      (b.store.collection e.collection).documents.map (rewritten (ids.zip (ms.map (·.node)))) ∧
    b.OnlyWrites e.collection b' := by
  induction ids generalizing b ms with
  | nil =>
    cases hrun
    have hnothing : rewritten [] = id := by
      funext doc
      simp [rewritten]
    exact ⟨.nil, by rw [List.zip_nil_left, hnothing, List.map_id], .refl _ _⟩
  | cons id ids ih =>
    rw [List.nodup_cons] at hnodup
    rw [List.forall_mem_cons] at hids
    obtain ⟨previous, hprevious⟩ := Option.isSome_iff_exists.mp hids.1
    obtain ⟨m, b₁, rest, hone, hrest, rfl⟩ := each_cons_eq_ok hrun
    obtain ⟨m', b₁', _, hone', hnode, hupdate, honly⟩ :=
      updateOne_eq_ok he hw hprevious hpatch userId
    cases hone.symm.trans hone'
    have hindexed := (hindex.update_of_some hupdate).1
    -- The documents that are still to come are those of the book before the update.
    have hkept : ∀ other ∈ ids,
        b₁.store.get? e.collection other = b.store.get? e.collection other := fun other hother =>
      hindex.get?_of_update_of_ne hupdate fun heq => hnodup.1 (heq ▸ hother)
    obtain ⟨hwritten, hdocuments, hall⟩ := ih hindexed hnodup.2
      (fun other hother => (congrArg Option.isSome (hkept other hother)).trans (hids.2 other hother))
      hrest
    refine ⟨.cons ⟨previous, _, hprevious, Nat.le_refl _, hnode⟩ ?_, ?_, honly.trans hall⟩
    · refine ((List.forall₂_and_left ids rest).mpr ⟨hkept, hwritten⟩).imp ?_
      rintro other m' ⟨hother, previous', n, hprevious', hn, hnode'⟩
      refine ⟨previous', n, hother.symm.trans hprevious', Nat.le_trans honly.timesDrawn hn, ?_⟩
      rw [hnode', honly.clock]
    · have hid := hindexed.documentId?_of_get? (Store.Collection.get?_of_update hupdate)
      have hnew := lookup_zip_of_not_mem hnodup.1 (rest.map (·.node))
      rw [hdocuments, hindex.documents_update hupdate, List.map_map]
      exact List.map_congr_left fun doc _ => rewritten_cons hid hnew doc

theorem updateMany_eq_ok (he : e ∈ catalog) (hw : e.readOnly = false)
    (h : (b.store.collection e.collection).WellIndexed) {ids : List Identifier}
    (hids : b.matchingIds e filter = .ok ids) (hpatch : payload patch = .ok fields)
    (userId : Identifier) :
    ∃ ms b', b.updateMany e filter patch userId = (.ok ms, b') ∧
      b.UpdatesAll e ids patch userId ms b' := by
  obtain ⟨hnodup, hpresent⟩ := matchingIds_of_mem_catalog he h hids
  obtain ⟨ms, b', hrun⟩ := each_updateOne_eq_ok he hw hpresent hpatch userId
  obtain ⟨hwritten, hdocuments, honly⟩ := each_updateOne he hw hpatch h hnodup hpresent hrun
  refine ⟨ms, b', ?_, ?_, hdocuments, honly.others⟩
  · rw [updateMany, writable_eq_ok.mpr hw, hids]
    exact hrun
  · refine hwritten.imp ?_
    rintro id m ⟨previous, n, hprevious, hn, hnode⟩
    exact ⟨n, hn, by rw [node_updateOne he hw hprevious hpatch, hnode]⟩

end

/-- What a removal of the documents under some identifiers comes to. -/
structure DeletesAll (b : Book) (e : Entity) (ids : List Identifier) (docs : List Fields)
    (b' : Book) : Prop where
  stored : List.Forall₂ (fun id doc => b.store.get? e.collection id = some doc) ids docs
  documents : (b'.store.collection e.collection).documents =
    (b.store.collection e.collection).documents.filter (Store.documentId? · ∉ ids.map some)
  others : ∀ name, name ≠ e.collection → b'.store.collection name = b.store.collection name

theorem each_deleteOne (hw : e.readOnly = false) {ids : List Identifier} {docs : List Fields}
    (hindex : (b.store.collection e.collection).WellIndexed) (hnodup : ids.Nodup)
    (hids : ∀ id ∈ ids, (b.store.get? e.collection id).isSome)
    (hrun : b.each (fun b id => b.deleteOne e id) ids = (.ok docs, b')) :
    b.DeletesAll e ids docs b' := by
  induction ids generalizing b docs with
  | nil =>
    cases hrun
    exact ⟨.nil, by simp, fun _ _ => rfl⟩
  | cons id ids ih =>
    rw [List.nodup_cons] at hnodup
    rw [List.forall_mem_cons] at hids
    obtain ⟨doc, hdoc⟩ := Option.isSome_iff_exists.mp hids.1
    obtain ⟨doc', b₁, rest, hone, hrest, rfl⟩ := each_cons_eq_ok hrun
    obtain ⟨b₁', hone', hdelete, -, hothers⟩ := deleteOne_eq_ok hw hdoc
    cases hone.symm.trans hone'
    -- The documents that are still to come are those of the book before the removal.
    have hkept : ∀ other ∈ ids,
        b₁.store.get? e.collection other = b.store.get? e.collection other := fun other hother =>
      hindex.get?_of_delete_of_ne hdelete fun heq => hnodup.1 (heq ▸ hother)
    have hall := ih (hindex.delete_of_some hdelete).1 hnodup.2
      (fun other hother => (congrArg Option.isSome (hkept other hother)).trans (hids.2 other hother))
      hrest
    refine ⟨.cons hdoc ?_, ?_, fun name hne => (hall.others name hne).trans (hothers name hne)⟩
    · refine ((List.forall₂_and_left ids rest).mpr ⟨hkept, hall.stored⟩).imp ?_
      rintro other doc ⟨hother, hget⟩
      exact hother.symm.trans hget
    · rw [hall.documents, hindex.documents_delete hdelete, List.filter_filter]
      refine List.filter_congr fun d _ => ?_
      simp only [List.map_cons, List.mem_cons, not_or, Bool.decide_and, Bool.and_comm]

theorem deleteMany_eq_ok (he : e ∈ catalog) (hw : e.readOnly = false)
    (h : (b.store.collection e.collection).WellIndexed) {ids : List Identifier}
    (hids : b.matchingIds e filter = .ok ids) :
    ∃ docs b', b.deleteMany e filter = (.ok docs, b') ∧ b.DeletesAll e ids docs b' := by
  obtain ⟨hnodup, hpresent⟩ := matchingIds_of_mem_catalog he h hids
  obtain ⟨docs, b', hrun⟩ := each_deleteOne_eq_ok hw h hnodup hpresent
  refine ⟨docs, b', ?_, each_deleteOne hw h hnodup hpresent hrun⟩
  rw [deleteMany, writable_eq_ok.mpr hw, hids]
  exact hrun

theorem DeletesAll.admitted_eq_nil (he : e ∈ catalog)
    (h : (b.store.collection e.collection).WellIndexed) {docs : List Fields}
    (hall : b.DeletesAll e ((b.admitted e p).filterMap Store.documentId?) docs b') :
    b'.admitted e p = [] := by
  rw [admitted, admits_congr he hall.others, hall.documents]
  refine List.filter_eq_nil_iff.mpr fun doc hdoc hadmits => ?_
  obtain ⟨hdoc, hleft⟩ := List.mem_filter.mp hdoc
  obtain ⟨id, hid⟩ := Option.isSome_iff_exists.mp (h.keyed doc hdoc)
  have hmem : id ∈ (b.admitted e p).filterMap Store.documentId? :=
    List.mem_filterMap.mpr ⟨doc, List.mem_filter.mpr ⟨hdoc, hadmits⟩, hid⟩
  exact of_decide_eq_true hleft (hid ▸ List.mem_map_of_mem hmem)

/-- A bulk write goes through what a query with its filter shows, row by row and each of them once.
An update writes each of the documents as it would alone, a removal gives them back as they were
stored and leaves none for the query to show. Everything else stays as it is. -/
theorem bulk_writes (he : e ∈ catalog) (hw : e.readOnly = false) (h : b.store.WellIndexed)
    (hp : Filter.compileOptional filter = .ok p) (settings : Settings) :
    ∃ page ids, (b.find settings e ⟨filter, [], .everything⟩).1 = .ok page ∧
      page.nodes.map rowId? = ids.map some ∧ ids.Nodup ∧
      (∀ patch fields userId, payload patch = .ok fields →
        ∃ ms b', b.updateMany e filter patch userId = (.ok ms, b') ∧
          b.UpdatesAll e ids patch userId ms b') ∧
      ∃ docs b', b.deleteMany e filter = (.ok docs, b') ∧ b.DeletesAll e ids docs b' ∧
        (b'.find settings e ⟨filter, [], .everything⟩).1.map (·.nodes) = .ok [] := by
  have hindex := h e.collection
  have hids := matchingIds_eq_ok (b := b) he hp
  obtain ⟨page, hfind, hnodes⟩ := find_everything he hp b settings
  obtain ⟨docs, b', hdelete, hall⟩ := deleteMany_eq_ok he hw hindex hids
  obtain ⟨left, hleft, hnone⟩ := find_everything he hp b' settings
  refine ⟨page, _, hfind, ?_, (matchingIds_of_mem_catalog he hindex hids).1,
    fun patch fields userId hpatch => updateMany_eq_ok he hw hindex hids hpatch userId,
    docs, b', hdelete, hall, ?_⟩
  · rw [hnodes, rowIds_of_admitted he hindex]
  · rw [hleft, Except.map, hnone, hall.admitted_eq_nil he hindex, List.map_nil]

theorem bulk_writes_companies :
    let initech : Fields := [("_id", (⟨7⟩ : Identifier).toJson), ("name", .str "Initech")]
    let initrode : Fields := [("_id", (⟨8⟩ : Identifier).toJson), ("name", .str "Initrode")]
    let contact : Fields :=
      [("_id", (⟨9⟩ : Identifier).toJson), ("companyId", (⟨7⟩ : Identifier).toJson)]
    let both := ((Store.empty.insert "companies" (.obj initech)).2.insert "companies"
      (.obj initrode)).2
    let b : Book := ⟨(both.insert "contacts" (.obj contact)).2, .documents, .zero, [],
      ⟨fun n => ⟨BitVec.ofNat 128 (n + 10)⟩, fun _ => ⟨19844, 36000, 250000000⟩, 0, 0⟩⟩
    let filter : Option Filter.Tree :=
      some (.leaf ⟨["contacts", "totalCount"]⟩ .gt (.ofNat 0))
    let patch : Json := .obj [("name", .str "Penetrode")]
    companies ∈ catalog ∧ companies.readOnly = false ∧ b.store.WellIndexed ∧
      (∃ p, Filter.compileOptional filter = .ok p) ∧
      ∃ ms updated deleted, b.updateMany companies filter patch ⟨99⟩ = (.ok ms, updated) ∧
        b.UpdatesAll companies [⟨7⟩] patch ⟨99⟩ ms updated ∧
        b.deleteMany companies filter = (.ok [initech], deleted) ∧
        b.DeletesAll companies [⟨7⟩] [initech] deleted ∧
        (deleted.find .standard companies ⟨filter, [], .everything⟩).1.map (·.nodes) = .ok [] := by
  intro initech initrode contact both b filter patch
  have he : companies ∈ catalog := by simp [catalog]
  have h : b.store.WellIndexed :=
    ((Store.wellIndexed_empty.insert _ _).insert _ _).insert _ _
  have hp : Filter.compileOptional filter = .ok _ := rfl
  obtain ⟨-, ids, -, -, -, hupdate, docs, deleted, hdelete, hall, hnone⟩ :=
    bulk_writes he rfl h hp .standard
  have hdocs : (b.deleteMany companies filter).1.toOption = some [initech] := by decide +kernel
  rw [hdelete] at hdocs
  cases hdocs
  have hids : ids = [⟨7⟩] := by
    have hid : Store.documentId? initech = some ⟨7⟩ := by decide +kernel
    obtain ⟨id, rest, hget, hrest, rfl⟩ := List.forall₂_cons_right_iff.mp hall.stored
    rw [List.forall₂_nil_right_iff.mp hrest]
    cases ((h "companies").documentId?_of_get? hget).symm.trans hid
    rfl
  subst hids
  obtain ⟨ms, updated, hrun, hwritten⟩ := hupdate patch _ ⟨99⟩ rfl
  exact ⟨he, rfl, h, ⟨_, hp⟩, ms, updated, deleted, hrun, hwritten, hdelete, hall, hnone⟩

end Book

end Crm

end Clientele
