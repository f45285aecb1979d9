import Clientele.Proofs.Audit.Document
import Clientele.Proofs.Store.OrderedMap

/-!
It does not matter where records are kept. In memory, in a journal and as documents of a store, the
same operations get the same replies, as long as every record comes with an identifier of its own.
-/
set_option autoImplicit false

namespace Clientele.Audit

variable {rs : List Record} {id : Identifier} {i : Nat} {r : Record}

theorem lookUp_cons (r : Record) (rs : List Record) (id : Identifier) :
    lookUp (r :: rs) id = (lookUp rs id).or (if r.id == id then some r else none) := by
  rw [lookUp, List.reverse_cons, List.find?_append, List.find?_singleton]
  rfl

theorem lookUp_eq_none (h : ∀ r ∈ rs, r.id ≠ id) : lookUp rs id = none := by
  rw [lookUp, List.find?_eq_none]
  intro r hr
  simpa using h r (List.mem_reverse.mp hr)

theorem modifyLast_eq_none {α : Type} {p : α → Bool} {xs : List α} (f : α → α)
    (h : ∀ x ∈ xs, p x = false) : modifyLast p f xs = none := by
  rw [← Option.not_isSome_iff_eq_none, isSome_modifyLast]
  simpa using h

theorem amendIn_eq_none (h : ∀ r ∈ rs, r.id ≠ id) (c : Change) (time : Time.Instant) :
    amendIn rs id c time = none :=
  modifyLast_eq_none _ fun r hr => beq_eq_false_iff_ne.mpr (h r hr)

theorem lookUp_of_last (hi : rs[i]? = some r) (hid : r.id = id)
    (hlast : ∀ q ∈ rs.drop (i + 1), q.id ≠ id) : lookUp rs id = some r := by
  induction rs generalizing i with
  | nil => cases hi
  | cons q rs ih =>
    rw [lookUp_cons]
    cases i with
    | zero =>
      cases hi
      simp only [List.drop_succ_cons, List.drop_zero] at hlast
      simp [lookUp_eq_none hlast, hid]
    | succ i => simp [ih hi hlast]

theorem amendIn_of_last (hi : rs[i]? = some r) (hid : r.id = id)
    (hlast : ∀ q ∈ rs.drop (i + 1), q.id ≠ id) (c : Change) (time : Time.Instant) :
    amendIn rs id c time = some (rs.set i (r.amend c time)) := by
  induction rs generalizing i with
  | nil => cases hi
  | cons q rs ih =>
    rw [amendIn, modifyLast, ← amendIn]
    cases i with
    | zero =>
      cases hi
      simp only [List.drop_succ_cons, List.drop_zero] at hlast
      simp [amendIn_eq_none hlast, hid]
    | succ i => simp [ih hi hlast]

inductive Operation where
  | insert (r : Record)
  | appendChange (id : Identifier) (change : Change) (time : Time.Instant)
  | get (id : Identifier)
  | records

inductive Reply where
  | inserted (outcome : Except Error Unit)
  | amended (outcome : Except Error Record)
  | found (outcome : Except Error (Option Record))
  | listed (outcome : Except Error (List Record))

namespace Operation

def run (t : Trail) (s : Store) : Operation → Reply × Trail × Store
  | insert r =>
    match t.insert s r with
    | (outcome, t, s) => (.inserted outcome, t, s)
  | appendChange id change time =>
    match t.appendChange s id change time with
    | (outcome, t, s) => (.amended outcome, t, s)
  | get id => (.found (t.get s id), t, s)
  | records => (.listed (t.records s), t, s)

def newId? : Operation → Option Identifier
  | insert r => some r.id
  | _ => none

def IsRecorded : Operation → Prop
  | insert r => r.IsRecorded
  | appendChange _ _ time => time.IsRecorded
  | get _ | records => True

end Operation

def replies (t : Trail) (s : Store) : List Operation → List Reply
  | [] => []
  | op :: ops =>
    match op.run t s with
    | (reply, t, s) => reply :: replies t s ops

theorem run_journal (rs : List Record) (text : List Char) (s s' : Store) (op : Operation) :
    ∃ reply rs' text', op.run (.memory rs) s = (reply, .memory rs', s) ∧
      op.run (.journal rs text) s' = (reply, .journal rs' text', s') := by
  cases op with
  | insert r => exact ⟨_, _, _, rfl, rfl⟩
  | appendChange id change time =>
    simp only [Operation.run, Trail.appendChange]
    cases lookUp rs id with
    | none => exact ⟨_, _, _, rfl, rfl⟩
    | some r =>
      cases amendIn rs id change time with
      | none => exact ⟨_, _, _, rfl, rfl⟩
      | some rs' => exact ⟨_, _, _, rfl, rfl⟩
  | get id => exact ⟨_, _, _, rfl, rfl⟩
  | records => exact ⟨_, _, _, rfl, rfl⟩

theorem replies_journal (rs : List Record) (text : List Char) (s s' : Store)
    (ops : List Operation) :
    replies (.memory rs) s ops = replies (.journal rs text) s' ops := by
  induction ops generalizing rs text with
  | nil => rfl
  | cons op ops ih =>
    obtain ⟨reply, rs', text', hmemory, hjournal⟩ := run_journal rs text s s' op
    simp only [replies, hmemory, hjournal, ih rs' text']

/-- The documents of the records in a store, under a right index, are these records. -/
structure Shows (s : Store) (rs : List Record) : Prop where
  indexed : (s.collection auditCollection).WellIndexed
  read : Trail.documents.records s = .ok rs

namespace Shows

variable {s s' : Store}

theorem last (h : Shows s rs) (hi : (s.collection auditCollection).positions[id]? = some i) :
    ∃ r, rs[i]? = some r ∧ r.id = id ∧ ∀ q ∈ rs.drop (i + 1), q.id ≠ id := by
  obtain ⟨before, doc, after, hsplit, rfl, hid, -, hafter⟩ := h.indexed.split hi
  have hread := Trail.records_documents.mp h.read
  have hkeyed := h.indexed.keyed
  rw [hsplit] at hkeyed hread
  rw [List.map_append, List.map_cons] at hread
  obtain ⟨rb, tail, rfl, hrb, htail⟩ := List.map_eq_append_iff.mp hread.symm
  obtain ⟨r, ra, rfl, hr, hra⟩ := List.map_eq_cons_iff.mp htail
  have hlength : rb.length = before.length := by
    simpa using congrArg List.length hrb
  rw [← hlength]
  refine ⟨r, by simp, Record.id_of_ofDocument? hr.symm hid, ?_⟩
  intro q hq
  have hq' : q ∈ ra := by simpa using hq
  obtain ⟨d, hd, hdq⟩ := List.mem_map.mp (hra ▸ List.mem_map_of_mem (f := some) hq')
  obtain ⟨k, hk⟩ := Option.isSome_iff_exists.mp (hkeyed d (by simp [hd]))
  rw [Record.id_of_ofDocument? hdq hk]
  rintro rfl
  exact hafter d hd hk

theorem lacks (h : Shows s rs) (hnone : (s.collection auditCollection).positions[id]? = none) :
    ∀ r ∈ rs, r.id ≠ id := by
  intro r hr
  have hmem : some r ∈ rs.map some := List.mem_map_of_mem hr
  rw [← Trail.records_documents.mp h.read] at hmem
  obtain ⟨d, hd, hdr⟩ := List.mem_map.mp hmem
  obtain ⟨k, hk⟩ := Option.isSome_iff_exists.mp (h.indexed.keyed d hd)
  rw [Record.id_of_ofDocument? hdr hk]
  rintro rfl
  exact h.indexed.lacks hnone d hd hk

theorem get (h : Shows s rs) (id : Identifier) :
    Trail.documents.get s id = .ok (lookUp rs id) := by
  cases hdoc : s.get? auditCollection id with
  | none =>
    have hlacks := h.lacks (h.indexed.positions_eq_none hdoc)
    rw [lookUp_eq_none hlacks]
    simp only [Trail.get, hdoc]
  | some doc =>
    obtain ⟨i, r, hi, -, hr, -, hget⟩ := Trail.get_documents_of_some h.read hdoc
    obtain ⟨r', hr', hid, hlast⟩ := h.last hi
    cases hr.symm.trans hr'
    rw [hget, lookUp_of_last hr hid hlast]

theorem insert (h : Shows s rs) (hrecorded : r.IsRecorded) (hnew : ∀ q ∈ rs, q.id ≠ r.id) :
    ∃ s', Trail.documents.insert s r = (.ok (), .documents, s') ∧ Shows s' (rs ++ [r]) := by
  have hknown : (s.collection auditCollection).knows r.id = false := by
    rw [Store.Collection.knows, Std.TreeMap.contains_eq_isSome_getElem?]
    cases hi : (s.collection auditCollection).positions[r.id]? with
    | none => rfl
    | some i =>
      obtain ⟨q, hq, hid, -⟩ := h.last hi
      exact absurd hid (hnew q (List.mem_of_getElem? hq))
  obtain ⟨c, hc⟩ : ∃ c, (s.collection auditCollection).insert auditCollection
      (.obj r.toDocument) = .ok c :=
    ⟨_, Store.Collection.insert_obj r.documentId?_toDocument hknown auditCollection⟩
  have hrun : Trail.documents.insert s r = (.ok (), .documents, s.put auditCollection c) := by
    simp only [Trail.insert, Store.insert, hc]
  refine ⟨_, hrun, ?_, Trail.records_insert (fun _ => hrecorded) hrun h.read⟩
  rw [Store.collection_put, if_pos rfl]
  exact h.indexed.of_insert hc

theorem appendChange (h : Shows s rs) (id : Identifier) (c : Change) {time : Time.Instant}
    (htime : time.IsRecorded) (s₀ : Store) :
    ∃ outcome rs' s', Trail.appendChange (.memory rs) s₀ id c time = (outcome, .memory rs', s₀) ∧
      Trail.documents.appendChange s id c time = (outcome, .documents, s') ∧
      Shows s' rs' ∧ rs'.map (·.id) = rs.map (·.id) := by
  rcases Trail.appendChange_documents h.read id c htime with
    ⟨i, r, doc, s', hi, hr, hupdate, hrun, hread⟩ | ⟨hnone, hrun⟩
  · obtain ⟨q, hq, hid, hlast⟩ := h.last hi
    cases hr.symm.trans hq
    refine ⟨_, rs.set i (r.amend c time), s', ?_, hrun, ⟨?_, hread⟩, ?_⟩
    · simp only [Trail.appendChange, lookUp_of_last hr hid hlast, amendIn_of_last hr hid hlast]
    · obtain ⟨c', hc', rfl⟩ := Store.update_eq_some hupdate
      rw [Store.collection_put, if_pos rfl]
      exact (h.indexed.update_of_some hc').1
    · obtain ⟨hlt, hget⟩ := List.getElem?_eq_some_iff.mp hr
      rw [List.map_set]
      refine List.ext_getElem? fun j => ?_
      rw [List.getElem?_set]
      split
      · rename_i hij
        subst hij
        simp [hlt, hget, Record.amend]
      · rfl
  · refine ⟨_, rs, s, ?_, hrun, h, rfl⟩
    simp only [Trail.appendChange,
      lookUp_eq_none (h.lacks (h.indexed.positions_eq_none hnone))]

end Shows

theorem Shows.run {s : Store} (h : Shows s rs) {op : Operation} (hrecorded : op.IsRecorded)
    (hnew : ∀ id, op.newId? = some id → ∀ q ∈ rs, q.id ≠ id) (s₀ : Store) :
    ∃ reply rs' s', op.run (.memory rs) s₀ = (reply, .memory rs', s₀) ∧
      op.run .documents s = (reply, .documents, s') ∧ Shows s' rs' ∧
      rs'.map (·.id) = rs.map (·.id) ++ op.newId?.toList := by
  cases op with
  | insert r =>
    obtain ⟨s', hrun, hshows⟩ := h.insert hrecorded (hnew r.id rfl)
    refine ⟨_, _, s', rfl, by simp only [Operation.run, hrun], hshows, by simp [Operation.newId?]⟩
  | appendChange id c time =>
    obtain ⟨outcome, rs', s', hmemory, hdocuments, hshows, hids⟩ :=
      h.appendChange id c hrecorded s₀
    refine ⟨.amended outcome, rs', s', ?_, ?_, hshows, by simp [hids, Operation.newId?]⟩
    · simp only [Operation.run, hmemory]
    · simp only [Operation.run, hdocuments]
  | get id =>
    exact ⟨_, rs, s, rfl, by simp only [Operation.run, h.get]; rfl, h, by simp [Operation.newId?]⟩
  | records =>
    exact ⟨_, rs, s, rfl, by simp only [Operation.run, h.read]; rfl, h, by simp [Operation.newId?]⟩

theorem Shows.replies {s : Store} (h : Shows s rs) {ops : List Operation}
    (hrecorded : ∀ op ∈ ops, op.IsRecorded)
    (hids : (rs.map (·.id) ++ ops.filterMap Operation.newId?).Nodup) (s₀ : Store) :
    replies (.memory rs) s₀ ops = replies .documents s ops := by
  -- The identifiers of the records so far and of those to come are distinct at every operation.
  induction ops generalizing rs s with
  | nil => rfl
  | cons op ops ih =>
    rw [List.forall_mem_cons] at hrecorded
    have hsplit : (op :: ops).filterMap Operation.newId? =
        op.newId?.toList ++ ops.filterMap Operation.newId? := by
      cases hnew : op.newId? <;> simp [hnew]
    rw [hsplit, ← List.append_assoc] at hids
    have hnew (id : Identifier) (hid : op.newId? = some id) : ∀ q ∈ rs, q.id ≠ id := by
      intro q hq
      have hfirst := (List.pairwise_append.mp (List.pairwise_append.mp hids).1).2.2
      exact hfirst q.id (List.mem_map_of_mem hq) id (by simp [hid])
    obtain ⟨reply, rs', s', hmemory, hdocuments, hshows, hids'⟩ := h.run hrecorded.1 hnew s₀
    rw [← hids'] at hids
    simp only [Audit.replies, hmemory, hdocuments, ih hshows hrecorded.2 hids]

/-- Operations whose records have distinct identifiers get the same replies from records in memory,
in a journal that is empty at first, and in a store without documents of records at first. -/
theorem replies_agree {ops : List Operation} (hids : (ops.filterMap Operation.newId?).Nodup)
    (hrecorded : ∀ op ∈ ops, op.IsRecorded) {s : Store}
    (hindexed : (s.collection auditCollection).WellIndexed)
    (hempty : s.rows auditCollection = []) (s₀ : Store) :
    replies (.memory []) s₀ ops = replies .documents s ops ∧
      ∃ t, openJournal [] = .ok t ∧ replies t s₀ ops = replies .documents s ops := by
  have hshows : Shows s [] := by
    refine ⟨hindexed, Trail.records_documents.mpr ?_⟩
    rw [Store.rows, Store.Collection.rows, List.map_eq_nil_iff] at hempty
    rw [hempty]
    rfl
  have hdocuments := hshows.replies hrecorded (by simpa using hids) s₀
  exact ⟨hdocuments, _, rfl, (replies_journal [] [] s₀ s₀ ops).symm.trans hdocuments⟩

/-- Two records, an amendment of the first, and one of a record that is not there. -/
theorem replies_agree_amended :
    let time : Time.Instant := ⟨19844, 36000, 250000000⟩
    let r : Record := ⟨⟨7⟩, .create, "Deal", ⟨9⟩, [⟨"title", none, some "Renewal"⟩], ⟨1⟩, time, time⟩
    let q : Record := ⟨⟨8⟩, .update, "Deal", ⟨9⟩, [], ⟨2⟩, time, time⟩
    let change : Change := ⟨"stage", some "NEW", some "WON"⟩
    let ops : List Operation := [.insert r, .insert q, .appendChange ⟨7⟩ change time,
      .appendChange ⟨9⟩ change time, .get ⟨7⟩, .get ⟨9⟩, .records]
    (ops.filterMap Operation.newId?).Nodup ∧ (∀ op ∈ ops, op.IsRecorded) ∧
      replies .documents .empty ops = [.inserted (.ok ()), .inserted (.ok ()),
        .amended (.ok (r.amend change time)), .amended (.error (.notFound ⟨9⟩)),
        .found (.ok (some (r.amend change time))), .found (.ok none),
        .listed (.ok [r.amend change time, q])] := by
  intro time r q change ops
  have htime : time.IsRecorded := ⟨by decide, by decide, by decide, fun h => absurd h (by decide)⟩
  have hids : (ops.filterMap Operation.newId?).Nodup := by decide
  have hrecorded : ∀ op ∈ ops, op.IsRecorded := by
    simp only [ops, List.forall_mem_cons]
    exact ⟨⟨htime, htime⟩, ⟨htime, htime⟩, htime, htime, trivial, trivial, trivial, by simp⟩
  have hagree := (replies_agree hids hrecorded (s := .empty) Store.Collection.wellIndexed_empty
    rfl .empty).1
  exact ⟨hids, hrecorded, hagree.symm⟩

end Clientele.Audit
