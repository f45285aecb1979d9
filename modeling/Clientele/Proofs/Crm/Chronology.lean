import Clientele.Proofs.Crm.Growth
import Clientele.Proofs.Crm.Reading
import Clientele.Proofs.Crm.Sorting
import Clientele.Proofs.Crm.Stamps
import Clientele.Proofs.Time.Chronology

/-!
Documents in the order of their stamps. What the gateway writes carries what the clock says at that
time, and keeps it until a later write puts another reading there. Stamps are in order as texts
exactly as their instants are, so that a sort by them is chronological.
-/
set_option autoImplicit false

namespace Clientele.Crm

namespace Step

def Makes (b : Book) (doc : Fields) : Step → Prop
  | insert e values userId => doc = b.nextDocument e values userId
  | update e _ patch userId => ∃ fields previous, patch = .obj fields ∧ e.readOnly = false ∧
      previous ∈ (b.store.collection e.collection).documents ∧
      doc = Store.Collection.patched previous (stamped (effectivePatch e previous fields) userId
        (b.supply.time b.supply.timesDrawn).toMillisPrecision)
  | _ => False

variable (settings : Settings) {b : Book} {s : Step} {name : String} {doc : Fields}

/-- Outside of the records, a step leaves the documents that it finds and what it writes. -/
theorem mem_documents_run (hs : s.IsAllowed) (hname : name ≠ Audit.auditCollection)
    (hdoc : doc ∈ ((s.run settings b).2.store.collection name).documents) :
    doc ∈ (b.store.collection name).documents ∨ s.Makes b doc := by
  have hspares (t : Audit.Trail) : t.Spares name := fun _ => hname
  cases s with
  | insert e values userId =>
    obtain ⟨he, hwritable, -⟩ := hs
    have hw := writable_eq_ok.mp hwritable
    rcases hinsert : b.store.insert e.collection (.obj (b.nextDocument e values userId)) with
      ⟨err | u, store⟩
    · simp only [run, answering, Book.insert_of_error hinsert] at hdoc
      rw [Store.collection_insert_of_error hinsert] at hdoc
      exact .inl hdoc
    · obtain ⟨log, hrun⟩ := Book.insert_of_ok hinsert
      simp only [run, answering, hrun, Book.recordIfAudited_of_writable _ hw,
        Book.collection_record _ _ _ _ _ _ (hspares _)] at hdoc
      obtain ⟨c, hc, rfl⟩ := Store.insert_eq_ok hinsert
      rcases Store.mem_documents_put hdoc with ⟨rfl, hmem⟩ | hmem
      · exact (Store.Collection.mem_insert hc hmem).imp_right fun heq => (Json.obj.inj heq).symm
      · exact .inl hmem
  | update e id patch userId =>
    rcases b.updateOne_cases e id patch userId with
      ⟨err, hrun⟩ | ⟨fields, previous, store, log, hw, hpayload, hprevious, hupdate, hrun⟩
    · simp only [run, answering, hrun] at hdoc
      exact .inl hdoc
    · simp only [run, answering, hrun, Book.recordIfAudited_of_writable _ hw,
        Book.collection_record _ _ _ _ _ _ (hspares _)] at hdoc
      obtain ⟨c, hc, rfl⟩ := Store.update_eq_some hupdate
      rcases Store.mem_documents_put hdoc with ⟨rfl, hmem⟩ | hmem
      · obtain ⟨i, -, hi⟩ := Option.bind_eq_some_iff.mp hprevious
        exact (Store.Collection.mem_updated hc hmem).imp_right fun heq =>
          ⟨fields, previous, (payload_eq_ok.mp hpayload).1, hw, List.mem_of_getElem? hi, heq⟩
      · exact .inl hmem
  | delete e id =>
    rcases b.deleteOne_cases e id with ⟨err, hrun⟩ | ⟨node, store, log, hw, hdelete, hrun⟩
    · simp only [run, answering, hrun] at hdoc
      exact .inl hdoc
    · simp only [run, answering, hrun] at hdoc
      obtain ⟨c, hc, rfl⟩ := Store.delete_eq_some hdelete
      rcases Store.mem_documents_put hdoc with ⟨rfl, hmem⟩ | hmem
      · exact .inl (Store.Collection.mem_delete hc hmem)
      · exact .inl hmem
  | find e q =>
    simp only [run, answering, Book.find] at hdoc
    split at hdoc <;> exact .inl hdoc

end Step

/-- Whether a field of a document holds what a clock has said. -/
def HasReading (clock : Nat → Time.Instant) (field : String) (doc : Fields) : Prop :=
  ∃ n, doc.get? field = some (.str (clock n).toMillisPrecision.millis)

/-- Whether a patch brings a value under a name. Empty strings are none. -/
def Brings (patch : Json) (name : String) : Prop :=
  ∃ fields, patch = .obj fields ∧ name ∈ (withoutBlanks fields).keys

def Call.patches : Call → List Json
  | updateOne _ _ patch _ | updateMany _ _ patch _ => [patch]
  | _ => []

/-- Whether a patch leaves it to the clock what a field holds. The time of the creation it can
bring, the time of the update not. -/
structure LeavesToClock (field : String) (patch : Json) : Prop where
  distinct : patch.DistinctKeys
  created : field = "createdAt" → ¬Brings patch "createdAt"

def timeFields : List String := ["createdAt", "updatedAt"]

variable {field : String}

theorem mem_timeFields_iff : field ∈ timeFields ↔ field = "createdAt" ∨ field = "updatedAt" := by
  simp [timeFields]

theorem hasReading_newDocument (hfield : field ∈ timeFields) (b : Book) (e : Entity) (values : Fields)
    (userId : Identifier) : HasReading b.supply.time field (b.nextDocument e values userId) := by
  have hstamps := get?_newDocument_of_mem_stamps e (b.supply.id b.supply.idsDrawn) userId
    (b.supply.time b.supply.timesDrawn).toMillisPrecision values
  simp only [creationStampsOf, List.forall_mem_cons] at hstamps
  obtain ⟨-, hcreated, hupdated, -⟩ := hstamps
  rcases mem_timeFields_iff.mp hfield with rfl | rfl
  · exact ⟨_, hcreated⟩
  · exact ⟨_, hupdated⟩

theorem hasReading_patched (hfield : field ∈ timeFields) {fields previous : Fields}
    (hpatch : LeavesToClock field (.obj fields)) (e : Entity) (userId : Identifier)
    {clock : Nat → Time.Instant} (n : Nat) (hprevious : HasReading clock field previous) :
    HasReading clock field (Store.Collection.patched previous
      (stamped (effectivePatch e previous fields) userId (clock n).toMillisPrecision)) := by
  rcases mem_timeFields_iff.mp hfield with rfl | rfl
  · have hname : "createdAt" ∉ effectiveNames e fields := by
      intro hmem
      rcases List.mem_append.mp hmem with hmem | hmem
      · exact hpatch.created rfl ⟨fields, rfl, hmem⟩
      · split at hmem
        · exact absurd ((pricedNames_sublist _).mem hmem) (by decide)
        · cases hmem
    obtain ⟨m, hm⟩ := hprevious
    exact ⟨m, (get?_patched_of_not_mem hname (by decide) previous userId _).trans hm⟩
  · have hstamps := get?_patched_of_mem_stamps e hpatch.distinct previous userId
      (clock n).toMillisPrecision
    simp only [updateStampsOf, List.forall_mem_cons] at hstamps
    exact ⟨n, hstamps.2.1⟩

namespace Step

def LeavesToClock (field : String) : Step → Prop
  | update _ _ patch _ => Crm.LeavesToClock field patch
  | _ => True

end Step

theorem Call.leavesToClock_of_mem_plan {c : Call}
    (hc : ∀ patch ∈ c.patches, LeavesToClock field patch) {b : Book} {s : Step} (hs : s ∈ c.plan b) :
    s.LeavesToClock field := by
  cases c with
  | createOne e values userId =>
    simp only [plan] at hs
    split at hs
    · rw [List.mem_singleton.mp hs]
      trivial
    · cases hs
  | createMany e values userId =>
    simp only [plan] at hs
    split at hs
    · obtain ⟨fields, -, rfl⟩ := List.mem_map.mp hs
      trivial
    · cases hs
  | updateOne e id patch userId =>
    rw [List.mem_singleton.mp hs]
    exact hc patch List.mem_cons_self
  | updateMany e filter patch userId =>
    simp only [plan] at hs
    split at hs
    · obtain ⟨id, -, rfl⟩ := List.mem_map.mp hs
      exact hc patch List.mem_cons_self
    · cases hs
  | deleteOne e id | find e q =>
    rw [List.mem_singleton.mp hs]
    trivial
  | deleteMany e filter =>
    simp only [plan] at hs
    split at hs
    · obtain ⟨id, -, rfl⟩ := List.mem_map.mp hs
      trivial
    · cases hs
  | findOne e id => cases hs

namespace Book

/-- Every document but the records holds in a field what a clock has said, which is the clock of the
book. -/
structure IsTimed (clock : Nat → Time.Instant) (field : String) (b : Book) : Prop where
  times : b.supply.time = clock
  documents : ∀ name, name ≠ Audit.auditCollection →
    ∀ doc ∈ (b.store.collection name).documents, HasReading clock field doc

variable {clock : Nat → Time.Instant} {b b' : Book}

theorem isTimed_run (hfield : field ∈ timeFields) (settings : Settings) {s : Step} (hs : s.IsAllowed)
    (hclock : s.LeavesToClock field) (h : b.IsTimed clock field) :
    (s.run settings b).2.IsTimed clock field where
  times := (s.effect settings b hs).precedes.times.trans h.times
  documents name hname doc hdoc := by
    rcases s.mem_documents_run settings hs hname hdoc with hdoc | hmade
    · exact h.documents name hname doc hdoc
    · have hb := h.times
      subst hb
      cases s with
      | insert e values userId =>
        obtain rfl := hmade
        exact hasReading_newDocument hfield b e values userId
      | update e id patch userId =>
        obtain ⟨fields, previous, rfl, hw, hprevious, rfl⟩ := hmade
        have hcollection := collection_ne_of_mem_catalog hs hw
        exact hasReading_patched hfield hclock e userId _ (h.documents _ hcollection _ hprevious)
      | delete e id | find e q => exact hmade.elim

theorem IsTimed.isInvariant (hfield : field ∈ timeFields) (settings : Settings) :
    IsInvariant settings (fun s => s.IsAllowed ∧ s.LeavesToClock field) (IsTimed clock field) where
  step hs h := isTimed_run hfield settings hs.1 hs.2 h
  record {b} targetEntity targetId changes userId action h := by
    refine ⟨?_, fun name hname doc hdoc => ?_⟩
    · rw [supply_record]
      exact h.times
    · rw [collection_record _ _ _ _ _ _ fun _ => hname] at hdoc
      exact h.documents name hname doc hdoc
  amend {b} id change h := by
    rcases happend : b.trail.appendChange b.store id change
      (b.supply.time b.supply.timesDrawn).toMillisPrecision with ⟨answer, trail, store⟩
    obtain ⟨log, hamend⟩ := amend_eq happend
    rw [hamend]
    refine ⟨h.times, fun name hname doc hdoc => ?_⟩
    rw [Audit.Trail.collection_appendChange happend fun _ => hname] at hdoc
    exact h.documents name hname doc hdoc

end Book

theorem exists_times {path : Path} {d : Query.Direction} {P : Time.Instant → Prop}
    (hrecorded : ∀ t, P t → t.IsRecorded) {rows : List Json}
    (hstamps : ∀ row ∈ rows, ∃ t, P t ∧ row.at? path = some (.str t.millis))
    (hrows : rows.Pairwise fun x y =>
      (d.apply (Json.compareOptional (x.at? path) (y.at? path))).isLE) :
    ∃ times : List Time.Instant, (∀ t ∈ times, P t) ∧
      rows.map (·.at? path) = times.map (fun t => some (.str t.millis)) ∧
      times.Pairwise fun x y => (d.apply (x.compare y)).isLE := by
  induction rows with
  | nil => exact ⟨[], by simp, rfl, .nil⟩
  | cons row rows ih =>
    rw [List.forall_mem_cons] at hstamps
    obtain ⟨hfirst, hrest⟩ := List.pairwise_cons.mp hrows
    obtain ⟨t, ht, hrow⟩ := hstamps.1
    obtain ⟨times, htimes, hmap, hordered⟩ := ih hstamps.2 hrest
    refine ⟨t :: times, ?_, by rw [List.map_cons, List.map_cons, hrow, hmap],
      List.pairwise_cons.mpr ⟨fun t' ht' => ?_, hordered⟩⟩
    · simpa [ht] using htimes
    · -- The row that has this stamp comes behind the first one.
      have hstamp : some (Json.str t'.millis) ∈ rows.map (·.at? path) := by
        rw [hmap]
        exact List.mem_map_of_mem (f := fun t => some (Json.str t.millis)) ht'
      obtain ⟨row', hrow', hat⟩ := List.mem_map.mp hstamp
      have hcompare := Time.Instant.compare_millis (hrecorded t ht) (hrecorded t' (htimes t' ht'))
      have hle := hfirst row' hrow'
      rw [hrow, hat] at hle
      rwa [← hcompare]

theorem spares_of_mem_timeFields {e : Entity} (he : e ∈ catalog) {field : String}
    (hfield : field ∈ timeFields) : ∀ stage ∈ e.relations, stage.spares field = true := by
  have hall : catalog.all fun e => e.relations.all fun stage =>
      timeFields.all fun field => stage.spares field := by decide +kernel
  intro stage hstage
  exact List.all_eq_true.mp (List.all_eq_true.mp (List.all_eq_true.mp hall e he) stage hstage)
    field hfield

namespace Book

variable {field : String} {clock : Nat → Time.Instant} {b : Book}

/-- A query that sorts by a time shows what its filter admits in the order of what the clock has
said. -/
theorem IsTimed.find_sorted (h : b.IsTimed clock field) (hfield : field ∈ timeFields)
    (hclock : ∀ n, (clock n).IsPlain) {e : Entity} (he : e ∈ catalog) (hw : e.readOnly = false)
    {filter : Option Filter.Tree} {p : Filter.Predicate}
    (hp : Filter.compileOptional filter = .ok p) (settings : Settings) (d : Query.Direction) :
    ∃ (page : Query.Connection) (times : List Time.Instant),
      (b.find settings e ⟨filter, [⟨.ofText field, d⟩], .everything⟩).1 = .ok page ∧
      page.nodes.Perm (b.rowsOf e p) ∧
      page.nodes.map (·.at? ⟨[field]⟩) = times.map (fun t => some (.str t.millis)) ∧
      (∀ t ∈ times, ∃ n, t = (clock n).toMillisPrecision) ∧
      times.Pairwise fun x y => (d.apply (x.compare y)).isLE := by
  obtain ⟨page, hfind, hsorted, -, -⟩ := find_unpaged he hp b settings [⟨.ofText field, d⟩]
  have hpath : (Path.ofText field).normalize = ⟨[field]⟩ := by
    rcases mem_timeFields_iff.mp hfield with rfl | rfl <;> decide
  have hordered := hsorted.ordered
  simp only [Query.compareBy_single, hpath] at hordered
  have hstamps : ∀ row ∈ page.nodes, ∃ t, (∃ n, t = (clock n).toMillisPrecision) ∧
      row.at? ⟨[field]⟩ = some (.str t.millis) := by
    intro row hrow
    obtain ⟨doc, hdoc, rfl⟩ := List.mem_map.mp (hsorted.perm.mem_iff.mp hrow)
    obtain ⟨n, hn⟩ := h.documents _ (collection_ne_of_mem_catalog he hw) doc
      (List.mem_of_mem_filter hdoc)
    have hget := Query.get?_related (spares_of_mem_timeFields he hfield) b.store.rows (.obj doc)
    exact ⟨_, ⟨n, rfl⟩, Json.at?_of_get? (hget.trans hn)⟩
  have hrecorded : ∀ t : Time.Instant, (∃ n, t = (clock n).toMillisPrecision) → t.IsRecorded := by
    rintro _ ⟨n, rfl⟩
    exact (hclock n).isRecorded
  obtain ⟨times, htimes, hmap, hchronological⟩ := exists_times hrecorded hstamps hordered
  exact ⟨page, times, hfind, hsorted.perm, hmap, htimes, hchronological⟩

/-- A stamp has 24 characters, ends in `Z` and is read as the instant that it was made of, cut to
the millisecond. Two stamps are in order as texts exactly as these instants are. After everything
that can be done to a book whose documents have their times from the clock, as long as no patch
brings such a time of its own, a query that sorts by it is chronological. -/
theorem stamps_chronological {s t : Time.Instant} (hs : s.IsPlain) (ht : t.IsPlain)
    (hclock : ∀ n, (clock n).IsPlain) (hfield : field ∈ timeFields) (hb : b.IsTimed clock field)
    (settings : Settings) {deeds : List Deed}
    (hdeeds : ∀ c, Deed.call c ∈ deeds →
      c.entity ∈ catalog ∧ ∀ patch ∈ c.patches, LeavesToClock field patch)
    {e : Entity} (he : e ∈ catalog) (hw : e.readOnly = false) {filter : Option Filter.Tree}
    {p : Filter.Predicate} (hp : Filter.compileOptional filter = .ok p) (d : Query.Direction) :
    (s.millis.length = 24 ∧ s.millis.toList.getLast? = some 'Z' ∧
      Filter.dateOf? (.str s.millis) = some s.toMillisPrecision) ∧
    compare s.toMillisPrecision.millis t.toMillisPrecision.millis =
      s.toMillisPrecision.compare t.toMillisPrecision ∧
    ∃ (page : Query.Connection) (times : List Time.Instant),
      ((b.afterDeeds settings deeds).find settings e
        ⟨filter, [⟨.ofText field, d⟩], .everything⟩).1 = .ok page ∧
      page.nodes.Perm ((b.afterDeeds settings deeds).rowsOf e p) ∧
      page.nodes.map (·.at? ⟨[field]⟩) = times.map (fun x => some (.str x.millis)) ∧
      (∀ x ∈ times, ∃ n, x = (clock n).toMillisPrecision) ∧
      times.Pairwise fun x y => (d.apply (x.compare y)).isLE := by
  have hrecorded := hs.isRecorded
  have hmillis := s.millis_toMillisPrecision
  have hread : Filter.dateOf? (.str s.millis) = some s.toMillisPrecision := by
    rw [Filter.dateOf?, ← hmillis, hrecorded.strict?_millis]
    rfl
  have hsteps : ∀ c, Deed.call c ∈ deeds → ∀ b, ∀ step ∈ c.plan b,
      step.IsAllowed ∧ step.LeavesToClock field := fun c hc _ _ hstep =>
    ⟨Call.isAllowed_of_mem_plan (hdeeds c hc).1 hstep,
      Call.leavesToClock_of_mem_plan (hdeeds c hc).2 hstep⟩
  have hafter := (IsTimed.isInvariant hfield settings).afterDeeds hsteps hb
  exact ⟨⟨hmillis ▸ hrecorded.length_millis, hmillis ▸ hrecorded.getLast?_millis, hread⟩,
    Time.Instant.compare_millis hrecorded ht.isRecorded,
    hafter.find_sorted hfield hclock he hw hp settings d⟩

theorem stamps_chronological_renamed :
    let last : Time.Instant := ⟨2932896, 86399, 999999999⟩
    let first : Time.Instant := ⟨-719528, 0, 0⟩
    let clock (n : Nat) : Time.Instant := if n < 2 then last else first
    let b : Book := ⟨.empty, .memory [], .zero, [], ⟨fun n => ⟨BitVec.ofNat 128 n⟩, clock, 0, 0⟩⟩
    let patch : Json := .obj [("name", .str "Initrode"), ("createdAt", .str "")]
    let deeds : List Deed := [
      .call (.createOne companies (.obj [("name", .str "Initech")]) ⟨98⟩),
      .call (.createOne companies (.obj [("name", .str "Globex")]) ⟨98⟩),
      .call (.updateOne companies ⟨0⟩ patch ⟨98⟩)]
    last.IsPlain ∧ first.IsPlain ∧ (∀ n, (clock n).IsPlain) ∧ b.IsTimed clock "createdAt" ∧
      (∀ c, Deed.call c ∈ deeds →
        c.entity ∈ catalog ∧ ∀ patch ∈ c.patches, LeavesToClock "createdAt" patch) ∧
      last.millis = "9999-12-31T23:59:59.999Z" ∧ first.millis = "0000-01-01T00:00:00.000Z" ∧
      Filter.dateOf? (.str last.millis) = some ⟨2932896, 86399, 999000000⟩ ∧
      ∃ (page : Query.Connection) (times : List Time.Instant),
        ((b.afterDeeds .standard deeds).find .standard companies
          ⟨none, [⟨.ofText "createdAt", .descending⟩], .everything⟩).1 = .ok page ∧
        page.nodes.map (·.at? ⟨["createdAt"]⟩) = times.map (fun x => some (.str x.millis)) ∧
        times.length = 2 ∧ times.Pairwise fun x y => (x.compare y).swap.isLE := by
  intro last first clock b patch deeds
  have hlast : last.IsPlain := ⟨by decide, by decide, by decide⟩
  have hfirst : first.IsPlain := ⟨by decide, by decide, by decide⟩
  have hclock : ∀ n, (clock n).IsPlain := fun n => by
    show (if n < 2 then last else first).IsPlain
    split
    · exact hlast
    · exact hfirst
  have hb : b.IsTimed clock "createdAt" := ⟨rfl, fun name _ doc hdoc => nomatch hdoc⟩
  have hpatch : LeavesToClock "createdAt" patch := by
    refine ⟨by simp [patch, Json.DistinctKeys, Fields.keys], ?_⟩
    rintro - ⟨fields, heq, hmem⟩
    rw [← Json.obj.inj heq] at hmem
    exact absurd hmem (by decide)
  have hdeeds : ∀ c, Deed.call c ∈ deeds →
      c.entity ∈ catalog ∧ ∀ patch ∈ c.patches, LeavesToClock "createdAt" patch := by
    simp [deeds, Call.entity, Call.patches, catalog, hpatch]
  obtain ⟨⟨-, -, hread⟩, -, page, times, hfind, hperm, hmap, -, hordered⟩ :=
    stamps_chronological hlast hfirst hclock (by decide) hb .standard hdeeds
      (by simp [catalog] : companies ∈ catalog) rfl
      (rfl : Filter.compileOptional none = .ok .always) .descending
  have hcut : last.toMillisPrecision = ⟨2932896, 86399, 999000000⟩ := by decide
  rw [hcut] at hread
  have hrows : ((b.afterDeeds .standard deeds).rowsOf companies .always).length = 2 := by
    decide +kernel
  have hlength := congrArg List.length hmap
  rw [List.length_map, List.length_map, hperm.length_eq, hrows] at hlength
  exact ⟨hlast, hfirst, hclock, hb, hdeeds, by decide +kernel, by decide +kernel, hread, page, times,
    hfind, hmap, hlength.symm, hordered⟩

end Book

end Clientele.Crm
