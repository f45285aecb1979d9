import Clientele.Proofs.Crm.Script

/-!
All that a step can do to the trail: nothing, or it writes one document and this is recorded.
-/
set_option autoImplicit false

namespace Clientele.Crm

namespace Book

/-- What does not touch the trail. -/
structure Keeps (b b' : Book) : Prop extends b.Precedes b' where
  trail : b'.trail = b.trail
  audits : b'.store.collection Audit.auditCollection = b.store.collection Audit.auditCollection
  noFailure : b'.counters.auditWriteFailures = b.counters.auditWriteFailures

theorem Keeps.refl (b : Book) : b.Keeps b := ⟨.refl b, rfl, rfl, rfl⟩

theorem Keeps.records {b b' : Book} (h : b.Keeps b') : b'.records = b.records := by
  rw [Book.records, h.trail]
  exact b.trail.records_congr h.audits

/-- A new document has an identifier that was drawn for it, and an updated one was there. -/
def Accounts (b b' : Book) (w : Write) : Prop :=
  match w.action with
  | .create => ∃ i, b.supply.idsDrawn ≤ i ∧ i < b'.supply.idsDrawn ∧ w.id = b.supply.id i
  | .update => ∃ name, (b.store.collection name).knows w.id

/-- What can come of a step, and what it has written. -/
inductive Effect (b : Book) : Book → List Write → Prop
  | silent {b' : Book} (h : b.Keeps b') : Effect b b' []
  | recorded {b' : Book} (h : b.Keeps b') (w : Write) (changes : List Audit.Change)
      (hw : b.Accounts b' w) :
      Effect b (b'.record w.entity w.id changes w.userId w.action).2 [w]

theorem Effect.precedes {b b' : Book} {ws : List Write} (h : b.Effect b' ws) : b.Precedes b' := by
  cases h with
  | silent h => exact h.toPrecedes
  | recorded h w changes hw => exact h.toPrecedes.trans (precedes_record ..)

theorem recordIfAudited_of_writable (b : Book) {e : Entity} (h : e.readOnly = false)
    (id : Identifier) (changes : List Audit.Change) (userId : Identifier)
    (action : Audit.Action) :
    (b.recordIfAudited e id changes userId action).2 =
      (b.record e.auditName id changes userId action).2 := by
  simp [recordIfAudited, Entity.audited, h]

end Book

namespace Step

variable (settings : Settings) (b : Book)

theorem effect_insert {e : Entity} {values : Fields} {userId : Identifier}
    (h : (insert e values userId).IsAllowed) :
    b.Effect ((insert e values userId).run settings b).2
      ((insert e values userId).writes settings b) := by
  obtain ⟨he, hwritable, hpayload⟩ := h
  have hw := writable_eq_ok.mp hwritable
  have hid := documentId?_newDocument he (payload_eq_ok.mp hpayload).2.1
    (b.supply.id b.supply.idsDrawn) userId (b.supply.time b.supply.timesDrawn).toMillisPrecision
  rcases hinsert : b.store.insert e.collection (.obj (b.nextDocument e values userId)) with
    ⟨answer, store⟩
  cases answer with
  | error err =>
    have hcollection := Store.collection_insert_of_error hinsert
    simp only [writes, run, answering, Book.insert_of_error hinsert]
    refine .silent ⟨⟨rfl, rfl, Nat.le_succ _, fun name k hk => .inl ?_, .rfl, .rfl, Nat.le_refl _⟩,
      rfl, hcollection _, rfl⟩
    rwa [hcollection] at hk
  | ok u =>
    obtain ⟨log, hrun⟩ := Book.insert_of_ok hinsert
    have hkeeps : b.Keeps ⟨store, b.trail,
        { b.counters with entitiesCreated := b.counters.entitiesCreated + 1 }, log,
        b.supply.next⟩ := by
      refine ⟨⟨rfl, rfl, Nat.le_succ _, fun name k hk => ?_, .rfl, .rfl, Nat.le_refl _⟩, rfl, ?_, rfl⟩
      · rcases Store.knows_of_insert hinsert hid hk with hk | rfl
        · exact .inl hk
        · exact .inr ⟨_, Nat.lt_succ_self _, rfl⟩
      · obtain ⟨c, -, rfl⟩ := Store.insert_eq_ok hinsert
        exact collection_put_of_mem_catalog he hw b.store c
    have heffect := Book.Effect.recorded hkeeps
      ⟨.create, e.auditName, b.supply.id b.supply.idsDrawn, userId⟩
      (Audit.changesWithDefaults e.publicFields e.defaults values)
      ⟨_, Nat.le_refl _, Nat.lt_succ_self _, rfl⟩
    simp only [writes, run, answering, hrun, Except.map, Book.nextDocument, hid, Option.map_some,
      Book.recordIfAudited_of_writable _ hw]
    exact heffect

theorem effect_update {e : Entity} {id : Identifier} {patch : Json} {userId : Identifier}
    (he : e ∈ catalog) :
    b.Effect ((update e id patch userId).run settings b).2
      ((update e id patch userId).writes settings b) := by
  rcases b.updateOne_cases e id patch userId with
    ⟨err, hrun⟩ | ⟨fields, previous, store, log, hw, -, -, hupdate, hrun⟩
  · simp only [writes, run, answering, hrun]
    exact .silent (.refl b)
  · have hput := Store.update_eq_some hupdate
    have hkeeps : b.Keeps ⟨store, b.trail,
        { b.counters with entitiesUpdated := b.counters.entitiesUpdated + 1 }, log,
        { b.supply with timesDrawn := b.supply.timesDrawn + 1 }⟩ := by
      refine ⟨⟨rfl, rfl, Nat.le_refl _, fun name k hk => .inl (Store.knows_of_update hupdate hk),
        .rfl, .rfl, Nat.le_refl _⟩, rfl, ?_, rfl⟩
      obtain ⟨c, -, rfl⟩ := hput
      exact collection_put_of_mem_catalog he hw b.store c
    obtain ⟨c, hc, -⟩ := hput
    have heffect := Book.Effect.recorded hkeeps ⟨.update, e.auditName, id, userId⟩
      (Audit.changesOnUpdate e.publicFields (some (.obj previous))
        (effectivePatch e previous fields))
      ⟨e.collection, Store.Collection.knows_updated hc⟩
    simp only [writes, run, answering, hrun, Except.map, Book.recordIfAudited_of_writable _ hw]
    exact heffect

theorem effect_delete {e : Entity} {id : Identifier} (he : e ∈ catalog) :
    b.Effect ((delete e id).run settings b).2 ((delete e id).writes settings b) := by
  rcases b.deleteOne_cases e id with ⟨err, hrun⟩ | ⟨node, store, log, hw, hdelete, hrun⟩
  · simp only [writes, run, answering, hrun]
    exact .silent (.refl b)
  · simp only [writes, run, answering, hrun]
    refine .silent ⟨⟨rfl, rfl, Nat.le_refl _,
      fun name k hk => .inl (Store.knows_of_delete hdelete hk), .rfl, .rfl, Nat.le_refl _⟩,
      rfl, ?_, rfl⟩
    obtain ⟨c, -, rfl⟩ := Store.delete_eq_some hdelete
    exact collection_put_of_mem_catalog he hw b.store c

theorem effect_find (e : Entity) (q : Query.Criteria) :
    b.Effect ((find e q).run settings b).2 ((find e q).writes settings b) := by
  simp only [writes, run, answering, Book.find]
  split
  all_goals exact .silent ⟨⟨rfl, rfl, Nat.le_refl _, fun _ _ hk => .inl hk, .rfl, .rfl,
    Nat.le_refl _⟩, rfl, rfl, rfl⟩

theorem effect {s : Step} (h : s.IsAllowed) :
    b.Effect (s.run settings b).2 (s.writes settings b) := by
  cases s with
  | insert e values userId => exact effect_insert settings b h
  | update e id patch userId => exact effect_update settings b h
  | delete e id => exact effect_delete settings b h
  | find e q => exact effect_find settings b e q

end Step

end Clientele.Crm
