import Clientele.Json.Reader
import Clientele.Proofs.Crm.Document
import Clientele.Proofs.Crm.Mirror

/-!
Change sets tell the truth about what was written. Each document that a call creates or updates is
in the store as it is answered, and the record about it tells the fields that it holds.
-/
set_option autoImplicit false

namespace Clientele

/-- No key of an object stands twice. -/
def Json.DistinctKeys : Json → Prop
  | .obj fs => (Fields.keys fs).Nodup
  | _ => True

/-- Values that are read from a text are of this kind. -/
theorem Json.distinctKeys_of_parse? {text : String} {v : Json} (h : parse? text = some v) :
    v.DistinctKeys := by
  obtain ⟨raw, -, rfl⟩ := Option.map_eq_some_iff.mp h
  cases raw with
  | obj fs =>
    have hnone : (Fields.keys []).Nodup := List.Pairwise.nil
    exact Fields.nodup_keys_overlay hnone _
  | _ => simp [collapse, DistinctKeys]

namespace Crm

def Answer.written : Answer → List Mutation
  | mutation m => [m]
  | mutations ms => ms
  | _ => []

namespace Step

def Yields (b : Book) (m : Mutation) : Step → Prop
  | insert e values userId => (b.insert e values userId).1 = .ok m
  | update e id patch userId => (b.updateOne e id patch userId).1 = .ok m
  | _ => False

/-- The truth about a step: what it writes is there after it, and the record tells it. -/
inductive Told (settings : Settings) (b : Book) : Step → Fields → Audit.Record → Prop
  | created {e : Entity} {values : Fields} {userId : Identifier} {node : Fields} {r : Audit.Record}
      (record : Write.ofRecord r = ⟨.create, e.auditName, r.targetId, userId⟩)
      (id : Store.documentId? node = some r.targetId)
      (stored : ((insert e values userId).run settings b).2.store.get? e.collection r.targetId =
        some node)
      (changes : TellsCreation e values node r.changes) :
      Told settings b (insert e values userId) node r
  | updated {e : Entity} {id : Identifier} {patch previous : Fields} {userId : Identifier}
      {node : Fields} {r : Audit.Record}
      (record : Write.ofRecord r = ⟨.update, e.auditName, id, userId⟩)
      (before : b.store.get? e.collection id = some previous)
      (stored : ((update e id (.obj patch) userId).run settings b).2.store.get? e.collection id =
        some node)
      (changes : TellsUpdate e patch previous node r.changes) :
      Told settings b (update e id (.obj patch) userId) node r

end Step

theorem Book.recordIfAudited_eq_ok {b b' : Book} {e : Entity} {id userId : Identifier}
    {changes : List Audit.Change} {action : Audit.Action} {r : Audit.Record}
    (h : b.recordIfAudited e id changes userId action = (some (.ok r), b')) :
    Write.ofRecord r = ⟨action, e.auditName, id, userId⟩ ∧ r.changes = changes ∧
      ∀ name, name ≠ Audit.auditCollection →
        b'.store.collection name = b.store.collection name := by
  unfold recordIfAudited at h
  split at h
  · rcases hinsert : b.trail.insert b.store (b.nextRecord e.auditName id changes userId action) with
      ⟨answer, trail, store⟩
    obtain ⟨log, hrecord⟩ := record_eq hinsert
    rw [hrecord] at h
    cases answer with
    | error err => cases h
    | ok u =>
      cases h
      exact ⟨rfl, rfl, fun name hname => Audit.Trail.collection_insert hinsert fun _ => hname⟩
  · cases h

namespace Book

variable {b : Book} {e : Entity} {userId : Identifier} {m : Mutation} {r : Audit.Record}

theorem insert_recorded {values : Fields} (hm : (b.insert e values userId).1 = .ok m)
    (hr : m.audit = some (.ok r)) :
    m.node = b.nextDocument e values userId ∧
    Write.ofRecord r = ⟨.create, e.auditName, b.supply.id b.supply.idsDrawn, userId⟩ ∧
    r.changes = Audit.changesWithDefaults e.publicFields e.defaults values ∧
    ∃ store, b.store.insert e.collection (.obj m.node) = (.ok (), store) ∧
      ∀ name, name ≠ Audit.auditCollection →
        (b.insert e values userId).2.store.collection name = store.collection name := by
  rcases hinsert : b.store.insert e.collection (.obj (b.nextDocument e values userId)) with
    ⟨answer, store⟩
  cases answer with
  | error err =>
    rw [insert_of_error hinsert] at hm
    cases hm
  | ok u =>
    obtain ⟨log, hrun⟩ := insert_of_ok hinsert
    split at hrun
    rename_i audit b' hrecord
    rw [hrun] at hm ⊢
    cases hm
    cases hr
    obtain ⟨hwrite, hchanges, hframe⟩ := recordIfAudited_eq_ok hrecord
    exact ⟨rfl, hwrite, hchanges, store, hinsert, hframe⟩

theorem updateOne_recorded {id : Identifier} {patch : Json}
    (hm : (b.updateOne e id patch userId).1 = .ok m) (hr : m.audit = some (.ok r)) :
    ∃ fields previous, e.readOnly = false ∧ payload patch = .ok fields ∧
      b.store.get? e.collection id = some previous ∧
      m.node = Store.Collection.patched previous (stamped (effectivePatch e previous fields) userId
        (b.supply.time b.supply.timesDrawn).toMillisPrecision) ∧
      Write.ofRecord r = ⟨.update, e.auditName, id, userId⟩ ∧
      r.changes = Audit.changesOnUpdate e.publicFields (some (.obj previous))
        (effectivePatch e previous fields) ∧
      ∃ written store, b.store.update e.collection id written = (some m.node, store) ∧
        ∀ name, name ≠ Audit.auditCollection →
          (b.updateOne e id patch userId).2.store.collection name = store.collection name := by
  rcases b.updateOne_cases e id patch userId with
    ⟨err, hrun⟩ | ⟨fields, previous, store, log, hw, hpayload, hprevious, hupdate, hrun⟩
  · rw [hrun] at hm
    cases hm
  · split at hrun
    rename_i audit b' hrecord
    rw [hrun] at hm ⊢
    cases hm
    cases hr
    obtain ⟨hwrite, hchanges, hframe⟩ := recordIfAudited_eq_ok hrecord
    exact ⟨fields, previous, hw, hpayload, hprevious, rfl, hwrite, hchanges, _, store, hupdate,
      hframe⟩

end Book

theorem Call.run_createOne {settings : Settings} {b : Book} {e : Entity} {values : Json}
    {userId : Identifier} {m : Mutation} (h : (b.createOne e values userId).1 = .ok m) :
    ((Call.createOne e values userId).run settings b).1 = .ok (.mutation m) :=
  congrArg (Except.map Answer.mutation) h

theorem Call.run_updateOne {settings : Settings} {b : Book} {e : Entity} {id : Identifier}
    {patch : Json} {userId : Identifier} {m : Mutation}
    (h : (b.updateOne e id patch userId).1 = .ok m) :
    ((Call.updateOne e id patch userId).run settings b).1 = .ok (.mutation m) :=
  congrArg (Except.map Answer.mutation) h

theorem exists_recorded {α : Type} (result : Except Error Mutation)
    (view : Mutation → Audit.Record → α) {x : α}
    (h : (result.toOption.bind fun m => (m.audit.bind Except.toOption).map (view m)) = some x) :
    ∃ m r, result = .ok m ∧ m.audit = some (.ok r) ∧ view m r = x := by
  rcases result with err | ⟨node, _ | err | r⟩
  case ok.some.ok => exact ⟨_, r, rfl, rfl, Option.some.inj h⟩
  all_goals cases h

namespace Step

variable {settings : Settings} {b : Book} {e : Entity} {userId : Identifier} {m : Mutation}
  {r : Audit.Record}

theorem told_insert {values : Fields} (h : (insert e values userId).IsAllowed)
    (hvalues : values.keys.Nodup) (hm : (b.insert e values userId).1 = .ok m)
    (hr : m.audit = some (.ok r)) : (insert e values userId).Told settings b m.node r := by
  obtain ⟨he, hwritable, hpayload⟩ := h
  have hkey := (payload_eq_ok.mp hpayload).2.1
  obtain ⟨hnode, hwrite, hchanges, store, hinsert, hframe⟩ := Book.insert_recorded hm hr
  have hid := documentId?_newDocument he hkey (b.supply.id b.supply.idsDrawn) userId
    (b.supply.time b.supply.timesDrawn).toMillisPrecision
  have htarget : r.targetId = b.supply.id b.supply.idsDrawn := congrArg Write.id hwrite
  rw [← Book.nextDocument, ← hnode, ← htarget] at hid
  refine .created (by rw [htarget]; exact hwrite) hid ?_ ?_
  -- The record may be a document of the same store, but never of this collection.
  · show (b.insert e values userId).2.store.get? e.collection r.targetId = _
    rw [Store.get?, hframe _ (collection_ne_of_mem_catalog he (writable_eq_ok.mp hwritable))]
    exact Store.get?_of_insert hinsert hid
  · rw [hchanges, hnode]
    exact tellsCreation_newDocument he hvalues hkey ..

theorem told_update {id : Identifier} {patch : Json} (he : e ∈ catalog)
    (hpatch : patch.DistinctKeys) (hm : (b.updateOne e id patch userId).1 = .ok m)
    (hr : m.audit = some (.ok r)) : (update e id patch userId).Told settings b m.node r := by
  obtain ⟨fields, previous, hw, hpayload, hprevious, hnode, hwrite, hchanges, written, store,
    hupdate, hframe⟩ := Book.updateOne_recorded hm hr
  obtain ⟨rfl, hkey, -⟩ := payload_eq_ok.mp hpayload
  refine .updated hwrite hprevious ?_ ?_
  · show (b.updateOne e id (.obj fields) userId).2.store.get? e.collection id = _
    rw [Store.get?, hframe _ (collection_ne_of_mem_catalog he hw)]
    exact Store.get?_of_update hupdate
  · rw [hchanges, hnode]
    exact tellsUpdate_patched e hpatch hkey previous userId _

theorem told {c : Call} (hc : c.entity ∈ catalog) (hkeys : ∀ v ∈ c.payloads, v.DistinctKeys)
    {b₀ : Book} {s : Step} (hs : s ∈ c.plan b₀) (hm : s.Yields b m) (hr : m.audit = some (.ok r)) :
    s.Told settings b m.node r := by
  have hallowed := Call.isAllowed_of_mem_plan hc hs
  rcases Call.of_mem_plan hs with ⟨values, userId, rfl, -, -, hmem⟩ |
    ⟨id, patch, userId, rfl, hmem⟩ | ⟨id, rfl⟩ | ⟨q, rfl⟩
  · exact told_insert hallowed (hkeys _ hmem) hm hr
  · exact told_update hc (hkeys _ hmem) hm hr
  all_goals cases hm

end Step

variable {settings : Settings} {b : Book}

namespace Book

/-- At a place among steps that are taken until one fails, what a step has answered with, in the
book as it finds it. -/
def YieldsAt (settings : Settings) (b : Book) (ss : List Step) (i : Nat) (m : Mutation) : Prop :=
  ∃ s ∈ ss, (b.untilFailure settings ss)[i]? = some s ∧
    s.Yields (b.runSteps settings ((b.untilFailure settings ss).take i)) m

theorem yieldsAt_singleton {s : Step} {m m' : Mutation} {i : Nat} (h : s.Yields b m)
    (hm : [m][i]? = some m') : b.YieldsAt settings [s] i m' := by
  have hsteps := untilFailure_singleton settings b s
  obtain ⟨hi, hget⟩ := List.getElem?_eq_some_iff.mp hm
  obtain rfl : i = 0 := by simpa using hi
  cases hget
  exact ⟨s, List.mem_cons_self, by rw [hsteps]; rfl, by rw [hsteps]; exact h⟩

theorem yieldsAt_cons {s : Step} {ss : List Step} {b' : Book} {w : Option Write}
    (hrun : s.run settings b = (.ok w, b')) {i : Nat} {m : Mutation}
    (h : b'.YieldsAt settings ss i m) : b.YieldsAt settings (s :: ss) (i + 1) m := by
  obtain ⟨t, ht, hget, hyields⟩ := h
  have hsteps := untilFailure_cons hrun ss
  refine ⟨t, List.mem_cons_of_mem s ht, by rw [hsteps]; exact hget, ?_⟩
  rw [hsteps, List.take_succ_cons, runSteps, hrun]
  exact hyields

theorem yieldsAt_each {α : Type} {f : Book → α → Except Error Mutation × Book} {step : α → Step}
    {write : α → Mutation → Option Write}
    (hstep : ∀ b x, (step x).run settings b = answering (write x) (f b x))
    (hyields : ∀ b x m, (f b x).1 = .ok m → (step x).Yields b m) {xs : List α}
    {ms : List Mutation} (hms : (b.each f xs).1 = .ok ms) {i : Nat} {m : Mutation}
    (hm : ms[i]? = some m) : b.YieldsAt settings (xs.map step) i m := by
  induction xs generalizing b ms i with
  | nil =>
    cases hms
    cases hm
  | cons x xs ih =>
    rcases hf : f b x with ⟨answer, b'⟩
    rw [each, hf] at hms
    cases answer with
    | error err => cases hms
    | ok m₀ =>
      obtain ⟨rest, hrest, rfl⟩ := Except.map_eq_ok_iff.mp hms
      have hrun : (step x).run settings b = (.ok (write x m₀), b') := by rw [hstep, hf]; rfl
      cases i with
      | zero =>
        cases hm
        refine ⟨step x, List.mem_cons_self, ?_, ?_⟩
        · rw [List.map_cons, untilFailure_cons hrun]
          rfl
        · exact hyields b x m (by rw [hf])
      | succ i => exact yieldsAt_cons hrun (ih hrest hm)

end Book

theorem Call.yieldsAt {c : Call} {answer : Answer} (hrun : (c.run settings b).1 = .ok answer)
    {i : Nat} {m : Mutation} (hm : answer.written[i]? = some m) :
    b.YieldsAt settings (c.plan b) i m := by
  cases c with
  | createOne e values userId =>
    obtain ⟨m', hcreate, rfl⟩ := Except.map_eq_ok_iff.mp hrun
    simp only [Book.createOne] at hcreate
    simp only [plan]
    cases hw : writable e with
    | error err => simp [hw] at hcreate
    | ok u =>
      cases hpayload : payload values with
      | error err => simp [hw, hpayload] at hcreate
      | ok fields =>
        simp only [hw, hpayload] at hcreate
        exact Book.yieldsAt_singleton hcreate hm
  | createMany e values userId =>
    obtain ⟨ms, hcreate, rfl⟩ := Except.map_eq_ok_iff.mp hrun
    simp only [Book.createMany] at hcreate
    simp only [plan]
    cases hw : writable e with
    | error err => simp [hw] at hcreate
    | ok u =>
      cases hpayloads : values.mapM payload with
      | error err => simp [hw, hpayloads] at hcreate
      | ok payloads =>
        simp only [hw, hpayloads] at hcreate
        exact Book.yieldsAt_each (fun _ _ => rfl) (fun _ _ _ => id) hcreate hm
  | updateOne e id patch userId =>
    obtain ⟨m', hupdate, rfl⟩ := Except.map_eq_ok_iff.mp hrun
    exact Book.yieldsAt_singleton hupdate hm
  | updateMany e filter patch userId =>
    obtain ⟨ms, hupdate, rfl⟩ := Except.map_eq_ok_iff.mp hrun
    simp only [Book.updateMany] at hupdate
    simp only [plan]
    cases hw : writable e with
    | error err => simp [hw] at hupdate
    | ok u =>
      cases hids : b.matchingIds e filter with
      | error err => simp [hw, hids] at hupdate
      | ok ids =>
        simp only [hw, hids] at hupdate
        exact Book.yieldsAt_each (fun _ _ => rfl) (fun _ _ _ => id) hupdate hm
  | deleteOne e id | deleteMany e filter | find e q =>
    obtain ⟨x, -, rfl⟩ := Except.map_eq_ok_iff.mp hrun
    cases hm
  | findOne e id =>
    cases hrun
    cases hm

/-- Where a call on an entity succeeds, and the record of a document that it has written does too,
the record tells the truth about the step that has written it. -/
theorem Call.told_of_run (settings : Settings) {b : Book} {c : Call} (hc : c.entity ∈ catalog)
    (hkeys : ∀ v ∈ c.payloads, v.DistinctKeys) {answer : Answer}
    (hrun : (c.run settings b).1 = .ok answer) {i : Nat} {m : Mutation}
    (hm : answer.written[i]? = some m) {r : Audit.Record} (hr : m.audit = some (.ok r)) :
    ∃ s, (c.steps settings b)[i]? = some s ∧
      s.Told settings (b.runSteps settings ((c.steps settings b).take i)) m.node r := by
  obtain ⟨s, hs, hget, hyields⟩ := Call.yieldsAt hrun hm
  exact ⟨s, hget, Step.told hc hkeys hs hyields hr⟩

theorem Call.told_of_run_checklist :
    let time : Time.Instant := ⟨19844, 36000, 250000000⟩
    let task : Fields := [("_id", .str "00000000-0000-0000-0000-000000000007"),
      ("title", .str "Call Bob"), ("checklist", .arr [.obj [("title", .str "dial")]])]
    let b : Book := ⟨(Store.empty.insert "tasks" (.obj task)).2, .memory [], .zero, [],
      ⟨fun n => ⟨BitVec.ofNat 128 n⟩, fun _ => time, 0, 0⟩⟩
    let patch : Json := .obj [("title", .str ""), ("updatedAt", .null), ("completed", .bool true),
      ("checklist", .arr [.obj [("title", .str "hang up")], .obj [("title", .str "write")]])]
    let c : Call := .updateOne tasks ⟨7⟩ patch ⟨99⟩
    let changes : List Audit.Change := [⟨"updatedAt", none, none⟩, ⟨"completed", none, some "true"⟩,
      ⟨"checklist.0.title", some "dial", some "hang up"⟩,
      ⟨"checklist.1.title", some "", some "write"⟩]
    c.entity ∈ catalog ∧ (∀ v ∈ c.payloads, v.DistinctKeys) ∧
      ∃ m r, (c.run .standard b).1 = .ok (.mutation m) ∧ m.audit = some (.ok r) ∧
        r.changes = changes ∧
        ∃ s, (c.steps .standard b)[0]? = some s ∧ s.Told .standard b m.node r := by
  intro time task b patch c changes
  have hc : c.entity ∈ catalog := by simp [c, Call.entity, catalog]
  have hkeys : ∀ v ∈ c.payloads, v.DistinctKeys := by
    simp [c, patch, payloads, Json.DistinctKeys, Fields.keys]
  have hrecorded : ((b.updateOne tasks ⟨7⟩ patch ⟨99⟩).1.toOption.bind fun m =>
      (m.audit.bind Except.toOption).map (·.changes)) = some changes := by decide +kernel
  rcases hupdate : (b.updateOne tasks ⟨7⟩ patch ⟨99⟩).1 with err | ⟨node, _ | err | r⟩
  case ok.some.ok =>
    rw [hupdate] at hrecorded
    have hrun : (c.run .standard b).1 = .ok (.mutation ⟨node, some (.ok r)⟩) :=
      congrArg (Except.map Answer.mutation) hupdate
    obtain ⟨s, hs, htold⟩ := told_of_run .standard hc hkeys hrun (i := 0) rfl rfl
    exact ⟨hc, hkeys, _, r, hrun, rfl, Option.some.inj hrecorded, s, hs, htold⟩
  all_goals
    rw [hupdate] at hrecorded
    cases hrecorded
end Crm

end Clientele
