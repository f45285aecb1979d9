import Clientele.Crm.Book
import Clientele.Proofs.Audit.Trail

/-!
What any operation on a book leaves as it is, and what recording a change does to the records. Drawn
identifiers stay drawn, the trail stays of its kind, and the store comes to know drawn identifiers
only.
-/
set_option autoImplicit false

namespace Clientele.Crm

def Supply.next (s : Supply) : Supply :=
  { s with idsDrawn := s.idsDrawn + 1, timesDrawn := s.timesDrawn + 1 }

namespace Book

variable {b b' b'' : Book}

structure Precedes (b b' : Book) : Prop where
  ids : b'.supply.id = b.supply.id
  times : b'.supply.time = b.supply.time
  drawn : b.supply.idsDrawn ≤ b'.supply.idsDrawn
  known : ∀ name k, (b'.store.collection name).knows k →
    (b.store.collection name).knows k ∨ ∃ i < b'.supply.idsDrawn, k = b.supply.id i
  documents : b'.trail = .documents ↔ b.trail = .documents
  reliable : b'.trail.IsReliable ↔ b.trail.IsReliable
  failures : b.counters.auditWriteFailures ≤ b'.counters.auditWriteFailures

theorem Precedes.refl (b : Book) : b.Precedes b :=
  ⟨rfl, rfl, Nat.le_refl _, fun _ _ h => .inl h, .rfl, .rfl, Nat.le_refl _⟩

theorem Precedes.trans (h : b.Precedes b') (h' : b'.Precedes b'') : b.Precedes b'' where
  ids := h'.ids.trans h.ids
  times := h'.times.trans h.times
  drawn := Nat.le_trans h.drawn h'.drawn
  known := by
    intro name k hk
    rcases h'.known name k hk with hk | ⟨i, hi, rfl⟩
    · rcases h.known name k hk with hk | ⟨i, hi, rfl⟩
      · exact .inl hk
      · exact .inr ⟨i, Nat.lt_of_lt_of_le hi h'.drawn, rfl⟩
    · exact .inr ⟨i, hi, congrFun h.ids i⟩
  documents := h'.documents.trans h.documents
  reliable := h'.reliable.trans h.reliable
  failures := Nat.le_trans h.failures h'.failures

/-- The identifiers that are drawn next, before the one at `n`, have not been drawn before and are
not known to the store. -/
structure Fresh (b : Book) (n : Nat) : Prop where
  distinct : ∀ i j, i < j → b.supply.idsDrawn ≤ j → j < n → b.supply.id i ≠ b.supply.id j
  unknown : ∀ name i, b.supply.idsDrawn ≤ i → i < n →
    (b.store.collection name).knows (b.supply.id i) = false

theorem Fresh.of_precedes {n : Nat} (h : b.Fresh n) (hb : b.Precedes b') : b'.Fresh n where
  distinct := by
    intro i j hij hj hn
    rw [hb.ids]
    exact h.distinct i j hij (Nat.le_trans hb.drawn hj) hn
  unknown := by
    intro name j hj hn
    rw [hb.ids]
    have hdrawn := Nat.le_trans hb.drawn hj
    refine Bool.eq_false_iff.mpr fun hk => ?_
    rcases hb.known name _ hk with hk | ⟨i, hi, heq⟩
    · exact absurd hk (Bool.eq_false_iff.mp (h.unknown name j hdrawn hn))
    · exact h.distinct i j (Nat.lt_of_lt_of_le hi hj) hdrawn hn heq.symm

/-- Where records are documents, what the clock says can be held by stamps. -/
def KeepsTime (b : Book) : Prop :=
  b.trail = .documents → ∀ n, (b.supply.time n).toMillisPrecision.IsRecorded

theorem KeepsTime.of_precedes (h : b.KeepsTime) (hb : b.Precedes b') : b'.KeepsTime := by
  intro ht n
  rw [hb.times]
  exact h (hb.documents.mp ht) n

def nextRecord (b : Book) (targetEntity : String) (targetId : Identifier)
    (changes : List Audit.Change) (userId : Identifier) (action : Audit.Action) : Audit.Record :=
  let time := (b.supply.time b.supply.timesDrawn).toMillisPrecision
  ⟨b.supply.id b.supply.idsDrawn, action, targetEntity, targetId, changes, userId, time, time⟩

def countedRecord (c : Telemetry.Counters) : Except Audit.Error Unit → Telemetry.Counters
  | .ok () => { c with auditRecordsWritten := c.auditRecordsWritten + 1 }
  | .error _ => { c with auditWriteFailures := c.auditWriteFailures + 1 }

section

variable {targetEntity : String} {targetId userId : Identifier} {changes : List Audit.Change}
  {action : Audit.Action} {trail : Audit.Trail} {store : Store}

/-- All that recording a change does. -/
theorem record_eq {answer : Except Audit.Error Unit} (h : b.trail.insert b.store
      (b.nextRecord targetEntity targetId changes userId action) = (answer, trail, store)) :
    ∃ log, b.record targetEntity targetId changes userId action =
      (answer.map fun _ => b.nextRecord targetEntity targetId changes userId action,
        ⟨store, trail, countedRecord b.counters answer, log, b.supply.next⟩) := by
  have hwrite : b.now.2.freshId.2.writeRecord
      (b.nextRecord targetEntity targetId changes userId action) =
        (answer, { b.now.2.freshId.2 with trail := trail, store := store }) := by
    simp only [writeRecord, freshId, now, h]
  unfold record
  simp only
  split
  · rename_i heq
    cases heq.symm.trans hwrite
    exact ⟨_, rfl⟩
  · rename_i heq
    cases heq.symm.trans hwrite
    exact ⟨_, rfl⟩

variable (b) (targetEntity targetId changes userId action)

theorem precedes_record :
    b.Precedes (b.record targetEntity targetId changes userId action).2 := by
  rcases hinsert : b.trail.insert b.store
    (b.nextRecord targetEntity targetId changes userId action) with ⟨answer, trail, store⟩
  obtain ⟨hdocuments, hreliable, hknown⟩ := Audit.Trail.insert_frame hinsert
  obtain ⟨log, hrecord⟩ := record_eq hinsert
  have hids (name : String) (k : Identifier) (hk : (store.collection name).knows k) :
      (b.store.collection name).knows k ∨
        ∃ i < b.supply.next.idsDrawn, k = b.supply.id i := by
    rcases hknown name k hk with hk | rfl
    · exact .inl hk
    · exact .inr ⟨_, Nat.lt_succ_self _, rfl⟩
  rw [hrecord]
  refine ⟨rfl, rfl, Nat.le_succ _, hids, hdocuments, hreliable, ?_⟩
  cases answer with
  | ok u => exact Nat.le_refl _
  | error e => exact Nat.le_succ _

theorem supply_record :
    (b.record targetEntity targetId changes userId action).2.supply = b.supply.next := by
  rcases hinsert : b.trail.insert b.store
    (b.nextRecord targetEntity targetId changes userId action) with ⟨answer, trail, store⟩
  obtain ⟨log, hrecord⟩ := record_eq hinsert
  rw [hrecord]

theorem collection_record {name : String} (hname : b.trail.Spares name) :
    (b.record targetEntity targetId changes userId action).2.store.collection name =
      b.store.collection name := by
  rcases hinsert : b.trail.insert b.store
    (b.nextRecord targetEntity targetId changes userId action) with ⟨answer, trail, store⟩
  obtain ⟨log, hrecord⟩ := record_eq hinsert
  rw [hrecord]
  exact Audit.Trail.collection_insert hinsert hname

theorem records_record (hclock : b.KeepsTime)
    (hfailures : (b.record targetEntity targetId changes userId action).2.counters.auditWriteFailures =
      b.counters.auditWriteFailures) {rs : List Audit.Record} (hrs : b.records = .ok rs) :
    (b.record targetEntity targetId changes userId action).2.records =
      .ok (rs ++ [b.nextRecord targetEntity targetId changes userId action]) := by
  rcases hinsert : b.trail.insert b.store
    (b.nextRecord targetEntity targetId changes userId action) with ⟨answer, trail, store⟩
  obtain ⟨log, hrecord⟩ := record_eq hinsert
  rw [hrecord] at hfailures ⊢
  cases answer with
  | ok u => exact Audit.Trail.records_insert (fun ht => ⟨hclock ht _, hclock ht _⟩) hinsert hrs
  | error e => exact absurd hfailures (Nat.succ_ne_self _)

theorem failures_record {n : Nat} (hfresh : b.Fresh n) (hn : b.supply.idsDrawn < n)
    (ht : b.trail.IsReliable) :
    (b.record targetEntity targetId changes userId action).2.counters.auditWriteFailures =
      b.counters.auditWriteFailures := by
  obtain ⟨trail, store, hinsert⟩ := Audit.Trail.insert_eq_ok
    (r := b.nextRecord targetEntity targetId changes userId action) ht
    (hfresh.unknown Audit.auditCollection _ (Nat.le_refl _) hn)
  obtain ⟨log, hrecord⟩ := record_eq hinsert
  rw [hrecord]
  rfl

end

end Book

end Clientele.Crm
