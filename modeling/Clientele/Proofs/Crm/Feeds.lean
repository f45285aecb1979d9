import Clientele.Proofs.Audit.Feed
import Clientele.Proofs.Audit.Written
import Clientele.Proofs.Crm.Growth
import Clientele.Proofs.Crm.Reading
import Clientele.Proofs.Crm.Sorting
import Clientele.Proofs.Filter.Range
import Clientele.Proofs.Time.Chronology

/-!
Two feeds of what a user did to entities of a kind: the one that the trail gives, which compares
instants, and a query of the documents that the records are kept as, which compares texts and joins
the user. Where the documents stand as they were written, both show the same records by the same
stamps.
-/
set_option autoImplicit false

namespace Clientele

theorem Filter.holds_eq_str (s t : String) :
    Condition.holds (.some (.eq (.json (.str s)))) (some (.str t)) = (s == t) := by
  have hcompare : (some (compare t s) == some Ordering.eq) = (s == t) := by
    rw [Bool.eq_iff_iff, beq_iff_eq, beq_iff_eq, Option.some.injEq, Std.LawfulEqCmp.compare_eq_iff_eq]
    exact eq_comm
  simpa [Condition.holds, candidates, Check.passes, Operand.compareStored?, Json.compareSameKind?,
    Json.compare] using hcompare

namespace Crm

open Audit (FeedQuery Written auditCollection newestFirst)

namespace Book

/-- The records are documents that stand as they were written. -/
structure IsFaithful (b : Book) : Prop where
  trail : b.trail = .documents
  clock : b.KeepsTime
  written : ∃ rs, Written b.store rs

namespace IsFaithful

variable {b b' : Book}

theorem of_keeps (h : b.IsFaithful) (hkeeps : b.Keeps b') : b'.IsFaithful := by
  obtain ⟨rs, hrs⟩ := h.written
  exact ⟨hkeeps.trail.trans h.trail, h.clock.of_precedes hkeeps.toPrecedes,
    rs, hrs.congr hkeeps.audits⟩

theorem record (h : b.IsFaithful) (targetEntity : String) (targetId : Identifier)
    (changes : List Audit.Change) (userId : Identifier) (action : Audit.Action) :
    (b.record targetEntity targetId changes userId action).2.IsFaithful := by
  obtain ⟨rs, hrs⟩ := h.written
  have hprecedes := b.precedes_record targetEntity targetId userId changes action
  refine ⟨hprecedes.documents.mpr h.trail, h.clock.of_precedes hprecedes, ?_⟩
  rcases hinsert : b.trail.insert b.store
    (b.nextRecord targetEntity targetId changes userId action) with ⟨answer, trail, store⟩
  obtain ⟨log, hrecord⟩ := record_eq hinsert
  rw [hrecord]
  rw [h.trail] at hinsert
  exact hrs.insert ⟨h.clock h.trail _, h.clock h.trail _⟩ hinsert

theorem amend (h : b.IsFaithful) (id : Identifier) (change : Audit.Change) :
    (b.amend id change).2.IsFaithful := by
  obtain ⟨rs, hrs⟩ := h.written
  have hadvances := advances_amend h.trail h.clock id change
  refine ⟨hadvances.trail, hadvances.keepsTime h.trail h.clock, ?_⟩
  rcases happend : b.trail.appendChange b.store id change
    (b.supply.time b.supply.timesDrawn).toMillisPrecision with ⟨answer, trail, store⟩
  obtain ⟨log, hamend⟩ := amend_eq happend
  rw [hamend]
  rw [h.trail] at happend
  exact hrs.appendChange (h.clock h.trail _) happend

theorem isInvariant (settings : Settings) : IsInvariant settings Step.IsAllowed IsFaithful :=
  .of_keeps (fun hkeeps h => h.of_keeps hkeeps)
    (fun targetEntity targetId changes userId action h =>
      h.record targetEntity targetId changes userId action)
    (fun id change h => h.amend id change)

end IsFaithful

end Book

/-- A query for what a user did to entities of a kind, the newest first. -/
def feedRequest (targetEntity : String) (userId : Identifier) : Query.Request :=
  ⟨.obj [("targetEntity", .obj [("eq", .str targetEntity)]),
      ("userId", .obj [("eq", .str userId.text)])],
    [⟨.ofText "createdAt", .descending⟩], .everything⟩

def feedTree (targetEntity : String) (userId : Identifier) : Filter.Tree :=
  .node .all [.leaf (.ofText "targetEntity") .eq (.str targetEntity),
    .leaf (.ofText "userId") .eq (.str userId.text)]

def feedPredicate (targetEntity : String) (userId : Identifier) : Filter.Predicate :=
  .all [.field ⟨["targetEntity"]⟩ (.some (.eq (.json (.str targetEntity)))),
    .field ⟨["userId"]⟩ (.some (.eq (.json (.str userId.text))))]

variable {targetEntity : String} (userId : Identifier)

theorem compile_feed (hname : targetEntity ≠ "") :
    Filter.compileOptional (some (feedTree targetEntity userId)) =
      .ok (feedPredicate targetEntity userId) := by
  have huser : userId.text ≠ "" := by
    have hempty : Identifier.ofText? "" = none := by decide
    intro heq
    cases (heq ▸ userId.ofText?_text).symm.trans hempty
  have hleaf (field : String) (hpath : (Path.ofText field).normalize = ⟨[field]⟩)
      (hkind : Filter.fieldKind ⟨[field]⟩ = .plain) {s : String} (hs : s ≠ "") :
      Filter.compileLeaf (.ofText field) .eq (.str s) =
        .ok (.field ⟨[field]⟩ (.some (.eq (.json (.str s))))) := by
    rw [← hpath] at hkind ⊢
    exact Filter.compileLeaf_eq_field (beq_eq_false_iff_ne.mpr hs) (by rw [hkind]; rfl)
  have hentity := hleaf "targetEntity" (by decide) (by decide) hname
  have huser := hleaf "userId" (by decide) (by decide) huser
  simp only [Filter.compileOptional, feedTree, Filter.compile, Filter.compileAll, hentity, huser]
  rfl

namespace Book

theorem readRequest_feed (b : Book) (settings : Settings) (targetEntity : String) :
    b.readRequest settings (feedRequest targetEntity userId) =
      (.ok ⟨some (feedTree targetEntity userId), [⟨.ofText "createdAt", .descending⟩],
        .everything⟩, b) := by
  have hread := Filter.read_leaves settings.policy [("targetEntity", .eq, .str targetEntity),
    ("userId", .eq, .str userId.text)] (by simp [Filter.Connective.ofName?])
  rw [readRequest, Query.Request.read]
  exact congrArg (fun r => b.accept (Filter.Reading.map _ r)) hread

theorem at?_row (b : Book) (r : Audit.Record) (key : String) (hkey : key ≠ "user") {v : Json}
    (hv : r.toDocument.get? key = some v) :
    (Query.related b.store.rows audits.relations (.obj r.toDocument)).at? ⟨[key]⟩ = some v := by
  have hrelations : audits.relations =
      [.lookup ⟨"users", ⟨["userId"]⟩, ⟨["_id"]⟩, ⟨["user"]⟩, .one⟩] := by rfl
  have hspares : ∀ stage ∈ audits.relations, stage.spares key := by
    simpa [hrelations, Query.Stage.spares] using hkey.symm
  exact Json.at?_of_get? ((Query.get?_related hspares _ _).trans hv)

theorem admits_feed (b : Book) (r : Audit.Record) :
    b.admits audits (feedPredicate targetEntity userId) r.toDocument =
      FeedQuery.admits ⟨some targetEntity, some userId, none⟩ r := by
  have hentity := b.at?_row r "targetEntity" (by decide) rfl
  have huser := b.at?_row r "userId" (by decide) (v := .str r.userId.text) rfl
  have htext : (userId.text == r.userId.text) = (userId == r.userId) := by
    rw [Bool.eq_iff_iff, beq_iff_eq, beq_iff_eq]
    exact ⟨Identifier.text_injective, congrArg _⟩
  simp only [admits, feedPredicate, Filter.Predicate.holds, Filter.Predicate.holdsAll, hentity, huser,
    Filter.holds_eq_str, htext, FeedQuery.admits, Option.all_some, Bool.and_true]

def createdAt : Path := ⟨["createdAt"]⟩

theorem stamps_eq {feed : List Audit.Record} {rows : List Json} {row : Audit.Record → Json}
    (hrow : ∀ r, (row r).at? createdAt = some (.str r.createdAt.millis))
    (hrecorded : ∀ r ∈ feed, r.IsRecorded) (hperm : rows.Perm (feed.map row))
    (hrows : rows.Pairwise fun x y =>
      (Query.compareBy (Query.SortRequest.compile [⟨.ofText "createdAt", .descending⟩]) x y).isLE)
    (hfeed : feed.Pairwise fun r r' => (newestFirst r r').isLE) :
    rows.map (·.at? createdAt) = feed.map fun r => some (.str r.createdAt.millis) := by
  have hpath : (Path.ofText "createdAt").normalize = createdAt := by decide
  have hkeys : (rows.map (·.at? createdAt)).Perm
      (feed.map fun r => some (.str r.createdAt.millis)) := by
    have hmap := hperm.map (·.at? createdAt)
    simpa only [List.map_map, Function.comp_def, hrow] using hmap
  let isLater (v w : Option Json) : Prop := (Json.compareOptional v w).swap.isLE
  have hlater (s t : String) : isLater (some (.str s)) (some (.str t)) ↔ (compare t s).isLE := by
    have hswap : compare t s = (compare s t).swap := Std.OrientedCmp.eq_swap
    rw [hswap]
    exact Iff.rfl
  have hrows' : (rows.map (·.at? createdAt)).Pairwise isLater := by
    simp only [Query.compareBy_single, hpath, Query.Direction.apply] at hrows
    exact List.pairwise_map.mpr hrows
  have hfeed' : (feed.map fun r => some (Json.str r.createdAt.millis)).Pairwise isLater := by
    refine List.pairwise_map.mpr (hfeed.imp_of_mem fun {r r'} hr hr' hle => (hlater _ _).mpr ?_)
    rw [Time.Instant.compare_millis (hrecorded r' hr').createdAt (hrecorded r hr).createdAt]
    exact hle
  -- All keys are texts, and of two different texts one is the later one.
  have htext : ∀ v ∈ feed.map fun r => some (Json.str r.createdAt.millis), ∃ s, v = some (.str s) := by
    intro v hv
    obtain ⟨r, -, rfl⟩ := List.mem_map.mp hv
    exact ⟨_, rfl⟩
  refine hkeys.eq_of_pairwise (fun v w hv hw hvw hwv => ?_) hrows' hfeed'
  obtain ⟨s, rfl⟩ := htext v (hkeys.mem_iff.mp hv)
  obtain ⟨t, rfl⟩ := htext w hw
  have hle := Std.OrientedCmp.isLE_antisymm ((hlater t s).mp hwv) ((hlater s t).mp hvw)
  rw [Std.LawfulEqCmp.compare_eq_iff_eq.mp hle]

/-- The feed of what a user did to entities of a kind, and the page that a query for it shows. -/
structure FeedsAgree (b : Book) (settings : Settings) (targetEntity : String) (userId : Identifier)
    (feed : List Audit.Record) (page : Query.Connection) : Prop where
  recent : b.recent ⟨some targetEntity, some userId, none⟩ = .ok feed
  found : ∃ q, b.readRequest settings (feedRequest targetEntity userId) = (.ok q, b) ∧
    (b.find settings audits q).1 = .ok page
  nodes : page.nodes.Perm (feed.map fun r =>
    Query.related b.store.rows audits.relations (.obj r.toDocument))
  stored : ∀ r ∈ feed, b.store.get? audits.collection r.id = some r.toDocument
  distinct : (feed.map (·.id)).Nodup
  stamps : page.nodes.map (·.at? createdAt) = feed.map fun r => some (.str r.createdAt.millis)
  total : page.totalCount = feed.length

/-- Where the records stand as they were written, the query shows what the feed shows. -/
theorem IsFaithful.exists_feeds {b : Book} (h : b.IsFaithful) (settings : Settings)
    (hname : targetEntity ≠ "") :
    ∃ feed page, b.FeedsAgree settings targetEntity userId feed page := by
  obtain ⟨rs, hrs⟩ := h.written
  let q : FeedQuery := ⟨some targetEntity, some userId, none⟩
  have hrecords : b.records = .ok rs := by
    rw [records, h.trail]
    exact hrs.records
  have hrecent : b.recent q = .ok (Audit.recent rs q) := by
    rw [recent, hrecords]
    rfl
  have hsortedFeed : StablySorted newestFirst (rs.reverse.filter q.admits) (Audit.recent rs q) :=
    Audit.stablySorted_recent rs q
  have hfeed : (Audit.recent rs q).Perm (rs.filter q.admits) :=
    hsortedFeed.perm.trans (rs.reverse_perm.filter _)
  have hmem : ∀ r ∈ Audit.recent rs q, r ∈ rs := fun r hr =>
    (List.mem_filter.mp (hfeed.mem_iff.mp hr)).1
  have hadmitted : b.admitted audits (feedPredicate targetEntity userId) =
      (rs.filter q.admits).map Audit.Record.toDocument := by
    have hdocuments : (b.store.collection audits.collection).documents =
        rs.map Audit.Record.toDocument := hrs.documents
    rw [admitted, hdocuments, List.filter_map]
    exact congrArg (List.map _) (List.filter_congr fun r _ => admits_feed userId b r)
  have haudits : audits ∈ catalog := by simp [catalog]
  obtain ⟨page, hfind, hsorted, htotal, -⟩ := find_unpaged haudits (compile_feed userId hname) b
    settings [⟨.ofText "createdAt", .descending⟩]
  have hnodes : page.nodes.Perm ((Audit.recent rs q).map fun r =>
      Query.related b.store.rows audits.relations (.obj r.toDocument)) := by
    rw [hadmitted, List.map_map] at hsorted
    exact hsorted.perm.trans (hfeed.map _).symm
  have hids : ((rs.filter q.admits).map (·.id)).Nodup :=
    hrs.nodup_ids.sublist (List.filter_sublist.map _)
  exact ⟨_, page,
    { recent := hrecent
      found := ⟨_, readRequest_feed userId b settings targetEntity, hfind⟩
      nodes := hnodes
      stored := fun r hr => hrs.get? (hmem r hr)
      distinct := (hfeed.map _).nodup_iff.mpr hids
      stamps := stamps_eq (fun r => b.at?_row r "createdAt" (by decide) rfl)
        (fun r hr => hrs.recorded r (hmem r hr)) hnodes hsorted.ordered hsortedFeed.ordered
      total := by rw [htotal, hadmitted, List.length_map, hfeed.length_eq] }⟩

/-- After all that can be done to a book whose records stand as they were written, for every name of
a kind of entities and every user: the query shows, each once, the documents of the records that the
feed shows, with the same stamps one after another and the length of the feed as its count. -/
theorem feeds_agree (settings : Settings) {b : Book} (h : b.IsFaithful) {deeds : List Deed}
    (hdeeds : ∀ c, Deed.call c ∈ deeds → c.entity ∈ catalog) (hname : targetEntity ≠ "") :
    ∃ feed page,
      (b.afterDeeds settings deeds).FeedsAgree settings targetEntity userId feed page :=
  have hfaithful := (IsFaithful.isInvariant settings).afterDeeds (isAllowed_of_deeds hdeeds) h
  hfaithful.exists_feeds userId settings hname

/-- A company is created and updated, a deal comes between, and the first record is amended. The
clock goes back in the meantime, so that the record of the update is the older one. -/
theorem feeds_agree_company :
    let late : Time.Instant := ⟨19844, 36000, 251000000⟩
    let early : Time.Instant := ⟨19844, 36000, 250000000⟩
    let b : Book := ⟨.empty, .documents, .zero, [],
      ⟨fun n => ⟨BitVec.ofNat 128 n⟩, fun n => if n < 2 then late else early, 0, 0⟩⟩
    let deeds : List Deed := [
      .call (.createOne companies (.obj [("name", .str "Initech")]) ⟨98⟩),
      .record "Deal" ⟨7⟩ [] ⟨98⟩ .create, .record "Company" ⟨0⟩ [] ⟨98⟩ .update,
      .amend ⟨1⟩ ⟨"name", some "Initech", "Initrode"⟩]
    b.IsFaithful ∧ (∀ c, Deed.call c ∈ deeds → c.entity ∈ catalog) ∧ "Company" ≠ "" ∧
      ∃ feed page, (b.afterDeeds .standard deeds).FeedsAgree .standard "Company" ⟨98⟩ feed page ∧
        feed.map (·.id) = [⟨1⟩, ⟨3⟩] ∧ page.totalCount = 2 := by
  intro late early b deeds
  have hlate : late.toMillisPrecision.IsRecorded :=
    ⟨by decide, by decide, by decide, fun h => absurd h (by decide)⟩
  have hearly : early.toMillisPrecision.IsRecorded :=
    ⟨by decide, by decide, by decide, fun h => absurd h (by decide)⟩
  have hclock : b.KeepsTime := fun _ n => by
    show (if n < 2 then late else early).toMillisPrecision.IsRecorded
    split
    · exact hlate
    · exact hearly
  have hfaithful : b.IsFaithful := ⟨rfl, hclock, [], .empty⟩
  have hdeeds : ∀ c, Deed.call c ∈ deeds → c.entity ∈ catalog := by
    simp [deeds, Call.entity, catalog]
  have hname : "Company" ≠ "" := by decide
  obtain ⟨feed, page, hagree⟩ := feeds_agree ⟨98⟩ .standard hfaithful hdeeds hname
  have hrecords : (b.afterDeeds .standard deeds).records.toOption = some [
      ⟨⟨1⟩, .create, "Company", ⟨0⟩, [⟨"name", none, "Initech"⟩, ⟨"name", some "Initech", "Initrode"⟩],
        ⟨98⟩, late, early⟩,
      ⟨⟨2⟩, .create, "Deal", ⟨7⟩, [], ⟨98⟩, early, early⟩,
      ⟨⟨3⟩, .update, "Company", ⟨0⟩, [], ⟨98⟩, early, early⟩] := by
    decide +kernel
  obtain ⟨rs, hrs, hfeed⟩ := Except.map_eq_ok_iff.mp hagree.recent
  rw [hrs] at hrecords
  cases hrecords
  have hids : feed.map (·.id) = [⟨1⟩, ⟨3⟩] := by
    rw [← hfeed]
    cbv
  refine ⟨hfaithful, hdeeds, hname, feed, page, hagree, hids, ?_⟩
  rw [hagree.total, ← List.length_map (·.id), hids]
  rfl

end Book

end Crm

end Clientele
