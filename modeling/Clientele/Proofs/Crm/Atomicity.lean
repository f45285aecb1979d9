import Clientele.Proofs.Crm.Effect
import Clientele.Proofs.Document.Path
import Clientele.Proofs.Query.Refinement
import Clientele.Proofs.Store.OrderedMap

/-!
A write that fails leaves everything as it was. What can be refused is refused before the first
document is written: the documents that a bulk write goes through are there, under distinct
identifiers, and stay there until it comes to them.
-/
set_option autoImplicit false

namespace Clientele

theorem Json.get?_setAt {p : Path} {key : String} (h : p.segments.head?.any (· ≠ key))
    (v new : Json) : (v.setAt p new).get? key = v.get? key := by
  obtain ⟨segments⟩ := p
  cases segments with
  | nil => cases h
  | cons s rest =>
    have hs : s ≠ key := by simpa using h
    have hset : (v.setAt ⟨s :: rest⟩ new).get? key =
        (Fields.update (v.fields?.getD []) s fun old =>
          setSegments new rest (old.getD (.obj []))).get? key := rfl
    rw [hset, Fields.get?_update_of_ne hs, get?_fields]

namespace Query

def Stage.spares (key : String) : Stage → Bool
  | .lookup l => l.target.segments.head?.any (· ≠ key)
  | .derived (.size _ target) | .derived (.sum _ _ target) =>
    target.segments.head?.any (· ≠ key)
  | _ => true

theorem Stage.get?_extend {stage : Stage} {key : String} (h : stage.spares key)
    (stored : String → List Json) (doc : Json) :
    (stage.extend stored doc).get? key = doc.get? key := by
  cases stage with
  | lookup l => exact Json.get?_setAt h doc _
  | derived d => cases d <;> exact Json.get?_setAt h doc _
  | _ => rfl

theorem get?_related {relations : Pipeline} {key : String}
    (h : ∀ stage ∈ relations, stage.spares key) (stored : String → List Json) (doc : Json) :
    (related stored relations doc).get? key = doc.get? key := by
  induction relations generalizing doc with
  | nil => rfl
  | cons stage relations ih =>
    rw [List.forall_mem_cons] at h
    exact (ih h.2 (stage.extend stored doc)).trans (stage.get?_extend h.1 stored doc)

end Query

namespace Crm

theorem relations_of_mem_catalog {e : Entity} (he : e ∈ catalog) :
    ∀ stage ∈ e.relations, stage.isRelation = true ∧ stage.spares Path.primaryKey = true := by
  have hall : catalog.all fun e => e.relations.all fun stage =>
      stage.isRelation && stage.spares Path.primaryKey := by decide +kernel
  intro stage hstage
  exact Bool.and_eq_true_iff.mp (List.all_eq_true.mp (List.all_eq_true.mp hall e he) stage hstage)

def rowId? (row : Json) : Option Identifier := (row.get? Path.primaryKey).bind Identifier.ofJson?

theorem rowId?_related {e : Entity} (he : e ∈ catalog) (stored : String → List Json) (doc : Fields) :
    rowId? (Query.related stored e.relations (.obj doc)) = Store.documentId? doc := by
  rw [rowId?, Query.get?_related fun stage hs => (relations_of_mem_catalog he stage hs).2]
  rfl

namespace Book

def admits (b : Book) (e : Entity) (p : Filter.Predicate) (doc : Fields) : Bool :=
  p.holds (Query.related b.store.rows e.relations (.obj doc))

def admitted (b : Book) (e : Entity) (p : Filter.Predicate) : List Fields :=
  (b.store.collection e.collection).documents.filter (b.admits e p)

theorem found_eq_map_admitted (b : Book) (e : Entity) (p : Filter.Predicate) :
    Query.found b.store e.collection e.relations p =
      (b.admitted e p).map fun doc => Query.related b.store.rows e.relations (.obj doc) := by
  rw [Query.found, Store.rows, Store.Collection.rows, List.map_map, List.filter_map]
  rfl

end Book

variable {b : Book} {e : Entity} {settings : Settings}

theorem Book.matchingIds_eq_ok (he : e ∈ catalog) {filter : Option Filter.Tree}
    {p : Filter.Predicate} (hp : Filter.compileOptional filter = .ok p) :
    b.matchingIds e filter = .ok ((b.admitted e p).filterMap Store.documentId?) := by
  have hselection : b.store.aggregate e.collection (Query.selection e.relations p) =
      Query.found b.store e.collection e.relations p :=
    Query.run_selection (fun stage hs => (relations_of_mem_catalog he stage hs).1) p _
  have hids : (Query.found b.store e.collection e.relations p).filterMap rowId? =
      (b.admitted e p).filterMap Store.documentId? := by
    rw [found_eq_map_admitted, List.filterMap_map]
    exact List.filterMap_congr fun doc _ => rowId?_related he _ doc
  rw [← hselection] at hids
  rw [matchingIds, hp]
  exact congrArg Except.ok hids

theorem Book.matchingIds_of_mem_catalog (he : e ∈ catalog)
    (h : (b.store.collection e.collection).WellIndexed) {filter : Option Filter.Tree}
    {ids : List Identifier} (hids : b.matchingIds e filter = .ok ids) :
    ids.Nodup ∧ ∀ id ∈ ids, (b.store.get? e.collection id).isSome := by
  cases hp : Filter.compileOptional filter with
  | error err =>
    rw [matchingIds, hp] at hids
    cases hids
  | ok p =>
    cases (matchingIds_eq_ok he hp).symm.trans hids
    have hsub : ((b.admitted e p).filterMap Store.documentId?).Sublist _ :=
      List.filter_sublist.filterMap Store.documentId?
    refine ⟨h.nodup_ids.sublist hsub, fun id hid => ?_⟩
    obtain ⟨doc, hdoc, hid⟩ := List.mem_filterMap.mp (hsub.subset hid)
    rw [Store.get?, h.get?_of_mem hdoc hid]
    rfl

namespace Book

/-- What leaves all collections but one alone, and those of the records. -/
structure OnlyWrites (b : Book) (collection : String) (b' : Book) : Prop where
  clock : b'.supply.time = b.supply.time
  drawn : b.supply.idsDrawn ≤ b'.supply.idsDrawn
  timesDrawn : b.supply.timesDrawn ≤ b'.supply.timesDrawn
  documents : b'.trail = .documents ↔ b.trail = .documents
  others : ∀ name, name ≠ collection → b.trail.Spares name →
    b'.store.collection name = b.store.collection name

theorem OnlyWrites.refl (b : Book) (collection : String) : b.OnlyWrites collection b :=
  ⟨rfl, Nat.le_refl _, Nat.le_refl _, .rfl, fun _ _ _ => rfl⟩

theorem OnlyWrites.trans {b' b'' : Book} {collection : String} (h : b.OnlyWrites collection b')
    (h' : b'.OnlyWrites collection b'') : b.OnlyWrites collection b'' where
  clock := h'.clock.trans h.clock
  drawn := Nat.le_trans h.drawn h'.drawn
  timesDrawn := Nat.le_trans h.timesDrawn h'.timesDrawn
  documents := h'.documents.trans h.documents
  others name hne hname :=
    (h'.others name hne fun ht => hname (h.documents.mp ht)).trans (h.others name hne hname)

theorem onlyWrites_recordIfAudited (b : Book) (collection : String) (e : Entity) (id : Identifier)
    (changes : List Audit.Change) (userId : Identifier) (action : Audit.Action) :
    b.OnlyWrites collection (b.recordIfAudited e id changes userId action).2 ∧
      (b.trail.Spares collection →
        (b.recordIfAudited e id changes userId action).2.store.collection collection =
          b.store.collection collection) := by
  unfold recordIfAudited
  split
  · have hprecedes := b.precedes_record e.auditName id userId changes action
    have hsupply := b.supply_record e.auditName id userId changes action
    have htimes : b.supply.timesDrawn ≤
        (b.record e.auditName id changes userId action).2.supply.timesDrawn := by
      rw [hsupply]
      exact Nat.le_succ _
    exact ⟨⟨hprecedes.times, hprecedes.drawn, htimes, hprecedes.documents, fun name _ =>
      b.collection_record _ _ _ _ _⟩, b.collection_record _ _ _ _ _⟩
  · exact ⟨.refl b collection, fun _ => rfl⟩

theorem insert_eq_ok {n : Nat} (hfresh : b.Fresh n) (hn : b.supply.idsDrawn < n) (he : e ∈ catalog)
    {values : Fields} (hvalues : payload (.obj values) = .ok values) (userId : Identifier) :
    ∃ m b', b.insert e values userId = (.ok m, b') := by
  have hid := documentId?_newDocument he (payload_eq_ok.mp hvalues).2.1
    (b.supply.id b.supply.idsDrawn) userId (b.supply.time b.supply.timesDrawn).toMillisPrecision
  have hstored := Store.Collection.insert_obj hid
    (hfresh.unknown e.collection _ (Nat.le_refl _) hn) e.collection
  obtain ⟨store, hinsert⟩ : ∃ store,
      b.store.insert e.collection (.obj (b.nextDocument e values userId)) = (.ok (), store) :=
    ⟨_, by rw [Store.insert, nextDocument, hstored]⟩
  obtain ⟨log, hrun⟩ := insert_of_ok hinsert
  rcases haudit : recordIfAudited _ e (b.supply.id b.supply.idsDrawn)
    (Audit.changesWithDefaults e.publicFields e.defaults values) userId .create with ⟨audit, b'⟩
  rw [haudit] at hrun
  exact ⟨_, _, hrun⟩

theorem drawn_insert (b : Book) (e : Entity) (values : Fields) (userId : Identifier) :
    b.supply.idsDrawn < (b.insert e values userId).2.supply.idsDrawn := by
  rcases hinsert : b.store.insert e.collection (.obj (b.nextDocument e values userId)) with
    ⟨answer, store⟩
  cases answer with
  | error err =>
    rw [insert_of_error hinsert]
    exact Nat.lt_succ_self _
  | ok u =>
    obtain ⟨log, hrun⟩ := insert_of_ok hinsert
    rw [hrun]
    refine Nat.lt_of_lt_of_le ?_ (onlyWrites_recordIfAudited _ e.collection _ _ _ _ _).1.drawn
    exact Nat.lt_succ_self _

def updatedDocument (e : Entity) (previous patch : Fields) (userId : Identifier)
    (time : Time.Instant) : Fields :=
  Store.Collection.patched previous (stamped (effectivePatch e previous patch) userId time)

theorem updateOne_eq_ok (he : e ∈ catalog) (hw : e.readOnly = false) {id : Identifier}
    {previous : Fields} (hprevious : b.store.get? e.collection id = some previous) {patch : Json}
    {fields : Fields} (hpatch : payload patch = .ok fields) (userId : Identifier) :
    ∃ m b' written, b.updateOne e id patch userId = (.ok m, b') ∧
      m.node = updatedDocument e previous fields userId
        (b.supply.time b.supply.timesDrawn).toMillisPrecision ∧
      (b.store.collection e.collection).update id written =
        some (m.node, b'.store.collection e.collection) ∧
      b.OnlyWrites e.collection b' := by
  obtain ⟨store, hupdate⟩ := Store.update_of_get? hprevious
    (stamped (effectivePatch e previous fields) userId
      (b.supply.time b.supply.timesDrawn).toMillisPrecision)
  obtain ⟨c, hc, rfl⟩ := Store.update_eq_some hupdate
  simp only [updateOne, writable_eq_ok.mpr hw, hpatch, hprevious, Book.patch, now, hupdate]
  generalize hwritten : Book.reportWrite _ .entityUpdated e id userId = b₁
  have hput (name : String) : b₁.store.collection name =
      if e.collection = name then c else b.store.collection name := by
    subst hwritten
    exact Store.collection_put ..
  have hone : b.OnlyWrites e.collection b₁ := by
    refine ⟨?_, ?_, ?_, ?_, fun name hne _ => (hput name).trans (if_neg hne.symm)⟩
    all_goals subst hwritten
    · rfl
    · exact Nat.le_refl _
    · exact Nat.le_succ _
    · exact Iff.rfl
  obtain ⟨hrecorded, hkept⟩ := onlyWrites_recordIfAudited b₁ e.collection e id
    (Audit.changesOnUpdate e.publicFields (some (.obj previous)) (effectivePatch e previous fields))
    userId .update
  refine ⟨_, _, stamped (effectivePatch e previous fields) userId
    (b.supply.time b.supply.timesDrawn).toMillisPrecision, rfl, rfl, ?_, hone.trans hrecorded⟩
  rw [hkept fun _ => collection_ne_of_mem_catalog he hw, hput, if_pos rfl]
  exact hc

theorem deleteOne_eq_ok (hw : e.readOnly = false) {id : Identifier} {doc : Fields}
    (hdoc : b.store.get? e.collection id = some doc) :
    ∃ b', b.deleteOne e id = (.ok doc, b') ∧
      (b.store.collection e.collection).delete id =
        some (doc, b'.store.collection e.collection) ∧
      b'.supply = b.supply ∧
      ∀ name, name ≠ e.collection → b'.store.collection name = b.store.collection name := by
  obtain ⟨c, hc⟩ := Store.Collection.delete_of_get? hdoc
  have hdelete : b.store.delete e.collection id = (some doc, b.store.put e.collection c) := by
    rw [Store.delete, hc]
  have hput (name : String) := Store.collection_put b.store e.collection c name
  simp only [deleteOne, writable_eq_ok.mpr hw, hdelete]
  refine ⟨_, rfl, hc.trans (congrArg (fun c => some (doc, c)) (Eq.symm ?_)), rfl, fun name hne => ?_⟩
  · exact (hput _).trans (if_pos rfl)
  · exact (hput name).trans (if_neg hne.symm)

theorem each_eq_ok {α β : Type} {f : Book → α → Except Error β × Book}
    (Ready : Book → List α → Prop)
    (hstep : ∀ b x xs, Ready b (x :: xs) → ∃ y b', f b x = (.ok y, b') ∧ Ready b' xs)
    {xs : List α} (h : Ready b xs) : ∃ ys b', b.each f xs = (.ok ys, b') := by
  induction xs generalizing b with
  | nil => exact ⟨[], b, rfl⟩
  | cons x xs ih =>
    obtain ⟨y, b', hf, hready⟩ := hstep b x xs h
    obtain ⟨ys, b'', hys⟩ := ih hready
    exact ⟨y :: ys, b'', by rw [each, hf]; simp only [hys]; rfl⟩

theorem each_insert_eq_ok {n : Nat} (hfresh : b.Fresh n) (he : e ∈ catalog)
    (hw : e.readOnly = false) {userId : Identifier} {payloads : List Fields}
    (hpayloads : ∀ values ∈ payloads, payload (.obj values) = .ok values)
    (hn : (b.each (fun b values => b.insert e values userId) payloads).2.supply.idsDrawn ≤ n) :
    ∃ ms b', b.each (fun b values => b.insert e values userId) payloads = (.ok ms, b') := by
  refine each_eq_ok (fun b payloads => b.Fresh n ∧
    (∀ values ∈ payloads, payload (.obj values) = .ok values) ∧
    (b.each (fun b values => b.insert e values userId) payloads).2.supply.idsDrawn ≤ n)
    (fun b values payloads h => ?_) ⟨hfresh, hpayloads, hn⟩
  obtain ⟨hfresh, hpayloads, hn⟩ := h
  rw [List.forall_mem_cons] at hpayloads
  have hprecedes : b.Precedes (b.insert e values userId).2 :=
    (Step.effect_insert .standard b ⟨he, writable_eq_ok.mpr hw, hpayloads.1⟩).precedes
  rcases hinsert : b.insert e values userId with ⟨answer, b'⟩
  rw [hinsert] at hprecedes
  simp only [each, hinsert] at hn
  cases answer with
  | ok m => exact ⟨m, b', rfl, hfresh.of_precedes hprecedes, hpayloads.2, hn⟩
  | error err =>
    -- The identifier of a refused document is the last one drawn, and it would have been fresh.
    have hdrawn : b.supply.idsDrawn < b'.supply.idsDrawn := by
      have h := b.drawn_insert e values userId
      rwa [hinsert] at h
    obtain ⟨m, b'', hok⟩ :=
      insert_eq_ok hfresh (Nat.lt_of_lt_of_le hdrawn hn) he hpayloads.1 userId
    cases hinsert.symm.trans hok

theorem each_updateOne_eq_ok (he : e ∈ catalog) (hw : e.readOnly = false) {ids : List Identifier}
    (hids : ∀ id ∈ ids, (b.store.get? e.collection id).isSome) {patch : Json} {fields : Fields}
    (hpatch : payload patch = .ok fields) (userId : Identifier) :
    ∃ ms b', b.each (fun b id => b.updateOne e id patch userId) ids = (.ok ms, b') := by
  refine each_eq_ok (fun b ids => ∀ id ∈ ids, (b.store.get? e.collection id).isSome)
    (fun b id ids h => ?_) hids
  rw [List.forall_mem_cons] at h
  obtain ⟨previous, hprevious⟩ := Option.isSome_iff_exists.mp h.1
  obtain ⟨m, b', _, hrun, -, hupdate, -⟩ := updateOne_eq_ok he hw hprevious hpatch userId
  exact ⟨m, b', hrun, fun other ho =>
    (Store.Collection.isSome_get?_of_update hupdate other).trans (h.2 other ho)⟩

theorem each_deleteOne_eq_ok (hw : e.readOnly = false)
    (hindex : (b.store.collection e.collection).WellIndexed) {ids : List Identifier}
    (hnodup : ids.Nodup) (hids : ∀ id ∈ ids, (b.store.get? e.collection id).isSome) :
    ∃ docs b', b.each (fun b id => b.deleteOne e id) ids = (.ok docs, b') := by
  refine each_eq_ok (fun b ids => (b.store.collection e.collection).WellIndexed ∧
    ids.Nodup ∧ ∀ id ∈ ids, (b.store.get? e.collection id).isSome)
    (fun b id ids h => ?_) ⟨hindex, hnodup, hids⟩
  obtain ⟨hindex, hnodup, hids⟩ := h
  rw [List.nodup_cons] at hnodup
  rw [List.forall_mem_cons] at hids
  obtain ⟨doc, hdoc⟩ := Option.isSome_iff_exists.mp hids.1
  obtain ⟨b', hrun, hdelete, -⟩ := deleteOne_eq_ok hw hdoc
  refine ⟨doc, b', hrun, (hindex.delete_of_some hdelete).1, hnodup.2, fun other ho => ?_⟩
  rw [Store.get?, hindex.get?_of_delete_of_ne hdelete fun heq => hnodup.1 (heq ▸ ho)]
  exact hids.2 other ho

theorem each_updateOne_of_error {patch : Json} {err : Error} (hpatch : payload patch = .error err)
    (userId : Identifier) (ids : List Identifier) :
    (b.each (fun b id => b.updateOne e id patch userId) ids).2 = b := by
  cases ids with
  | nil => rfl
  | cons id ids =>
    obtain ⟨err', hrun⟩ : ∃ err', b.updateOne e id patch userId = (.error err', b) := by
      unfold updateOne
      rw [hpatch]
      cases writable e with
      | error err' => exact ⟨err', rfl⟩
      | ok u => exact ⟨err, rfl⟩
    rw [each, hrun]

section

variable {err : Error}

theorem createOne_of_error (he : e ∈ catalog) {values : Json} {userId : Identifier}
    (hfresh : b.Fresh (b.createOne e values userId).2.supply.idsDrawn)
    (herror : (b.createOne e values userId).1 = .error err) :
    (b.createOne e values userId).2 = b := by
  unfold createOne at hfresh herror ⊢
  split at herror
  · rfl
  · rfl
  · rename_i fields hw hvalues
    obtain rfl := (payload_eq_ok.mp hvalues).1
    simp only [hw, hvalues] at hfresh
    obtain ⟨m, b', hrun⟩ := insert_eq_ok hfresh (b.drawn_insert e fields userId) he hvalues userId
    rw [hrun] at herror
    cases herror

theorem createMany_of_error (he : e ∈ catalog) {values : List Json} {userId : Identifier}
    (hfresh : b.Fresh (b.createMany e values userId).2.supply.idsDrawn)
    (herror : (b.createMany e values userId).1 = .error err) :
    (b.createMany e values userId).2 = b := by
  unfold createMany at hfresh herror ⊢
  split at herror
  · rfl
  · rfl
  · rename_i payloads hw hvalues
    have hpayloads : ∀ fields ∈ payloads, payload (.obj fields) = .ok fields := by
      intro fields hfields
      obtain ⟨v, -, hv⟩ := Except.exists_of_mem_mapM hvalues hfields
      obtain rfl := (payload_eq_ok.mp hv).1
      exact hv
    simp only [hw, hvalues] at hfresh
    obtain ⟨ms, b', hrun⟩ := each_insert_eq_ok hfresh he (writable_eq_ok.mp hw) hpayloads
      (Nat.le_refl _)
    rw [hrun] at herror
    cases herror

theorem updateOne_of_error {id : Identifier} {patch : Json} {userId : Identifier}
    (herror : (b.updateOne e id patch userId).1 = .error err) :
    (b.updateOne e id patch userId).2 = b := by
  rcases b.updateOne_cases e id patch userId with ⟨err, hrun⟩ | ⟨_, _, _, _, _, _, _, _, hrun⟩
  · rw [hrun]
  · rw [hrun] at herror
    cases herror

theorem updateMany_of_error (he : e ∈ catalog)
    (hindex : (b.store.collection e.collection).WellIndexed) {filter : Option Filter.Tree}
    {patch : Json} {userId : Identifier}
    (herror : (b.updateMany e filter patch userId).1 = .error err) :
    (b.updateMany e filter patch userId).2 = b := by
  unfold updateMany at herror ⊢
  split at herror
  · rfl
  · rfl
  · rename_i ids hw hids
    cases hpatch : payload patch with
    | error err => exact each_updateOne_of_error hpatch userId ids
    | ok fields =>
      obtain ⟨ms, b', hrun⟩ := each_updateOne_eq_ok he (writable_eq_ok.mp hw)
        (matchingIds_of_mem_catalog he hindex hids).2 hpatch userId
      rw [hrun] at herror
      cases herror

theorem deleteOne_of_error {id : Identifier} (herror : (b.deleteOne e id).1 = .error err) :
    (b.deleteOne e id).2 = b := by
  rcases b.deleteOne_cases e id with ⟨err, hrun⟩ | ⟨_, _, _, _, _, hrun⟩
  · rw [hrun]
  · rw [hrun] at herror
    cases herror

theorem deleteMany_of_error (he : e ∈ catalog)
    (hindex : (b.store.collection e.collection).WellIndexed) {filter : Option Filter.Tree}
    (herror : (b.deleteMany e filter).1 = .error err) : (b.deleteMany e filter).2 = b := by
  unfold deleteMany at herror ⊢
  split at herror
  · rfl
  · rfl
  · rename_i ids hw hids
    obtain ⟨hnodup, hthere⟩ := matchingIds_of_mem_catalog he hindex hids
    obtain ⟨docs, b', hrun⟩ := each_deleteOne_eq_ok (writable_eq_ok.mp hw) hindex hnodup hthere
    rw [hrun] at herror
    cases herror

end

end Book

namespace Call

def isWrite : Call → Bool
  | createOne .. | createMany .. | updateOne .. | updateMany .. | deleteOne .. | deleteMany .. =>
    true
  | find .. | findOne .. => false

/-- A write that fails on an entity of the catalog, under fresh identifiers, leaves the book as it
was: documents, records, counters, log and supply. -/
theorem run_of_error {c : Call} (hc : c.isWrite) (he : c.entity ∈ catalog)
    (hindex : b.store.WellIndexed) (hfresh : b.Fresh (c.run settings b).2.supply.idsDrawn)
    {err : Error} (herror : (c.run settings b).1 = .error err) : (c.run settings b).2 = b := by
  cases c with
  | createOne e values userId =>
    exact Book.createOne_of_error he hfresh (Except.map_eq_error_iff.mp herror)
  | createMany e values userId =>
    exact Book.createMany_of_error he hfresh (Except.map_eq_error_iff.mp herror)
  | updateOne e id patch userId =>
    exact Book.updateOne_of_error (Except.map_eq_error_iff.mp herror)
  | updateMany e filter patch userId =>
    exact Book.updateMany_of_error he (hindex _) (Except.map_eq_error_iff.mp herror)
  | deleteOne e id => exact Book.deleteOne_of_error (Except.map_eq_error_iff.mp herror)
  | deleteMany e filter =>
    exact Book.deleteMany_of_error he (hindex _) (Except.map_eq_error_iff.mp herror)
  | find e q => cases hc
  | findOne e id => cases hc

theorem run_of_error_identified :
    let company : Fields := [("_id", (⟨7⟩ : Identifier).toJson), ("name", .str "Initech")]
    let b : Book := ⟨(Store.empty.insert "companies" (.obj company)).2, .documents, .zero, [],
      ⟨fun n => ⟨BitVec.ofNat 128 (n + 8)⟩, fun _ => ⟨19844, 36000, 250000000⟩, 0, 0⟩⟩
    let c : Call := .createMany companies
      [.obj [("name", .str "Initrode")], .obj [("name", .str "Penetrode"), ("id", .null)]] ⟨99⟩
    c.isWrite ∧ c.entity ∈ catalog ∧ b.store.WellIndexed ∧
      b.Fresh (c.run .standard b).2.supply.idsDrawn ∧
      (c.run .standard b).1.map (fun _ => ()) = .error .keyInPayload ∧
      (c.run .standard b).2 = b := by
  intro company b c
  have he : c.entity ∈ catalog := by simp [c, entity, catalog]
  have hindex : b.store.WellIndexed := Store.wellIndexed_empty.insert _ _
  have hfresh : b.Fresh (c.run .standard b).2.supply.idsDrawn :=
    ⟨fun _ j _ _ hj => absurd hj (Nat.not_lt_zero j), fun _ j _ hj => absurd hj (Nat.not_lt_zero j)⟩
  have herror : (c.run .standard b).1 = .error .keyInPayload := rfl
  exact ⟨rfl, he, hindex, hfresh, congrArg _ herror, run_of_error rfl he hindex hfresh herror⟩

end Call

end Crm

end Clientele
