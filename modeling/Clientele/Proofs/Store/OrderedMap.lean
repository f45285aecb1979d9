import Clientele.Proofs.Json.Value
import Clientele.Proofs.Store.Index
import Clientele.Proofs.Outcome
import Clientele.Store.Snapshot

/-!
A store is a map for each collection, kept in the order of insertion: whatever is done to a store
that was empty or read from a folder, every call answers as it would on a plain list of documents
under their identifiers, and the index of every collection stays right.
-/
set_option autoImplicit false

namespace Clientele.Store

namespace Entries

def insert (es : Entries) (name : String) : Json → Except InsertError Entries
  | .obj fields =>
    match documentId? fields with
    | none => .error (.noIdentifier name)
    | some id =>
      if (es.lookup id).isSome then .error (.duplicate name id) else .ok (es ++ [(id, fields)])
  | _ => .error (.notObject name)

def update (es : Entries) (id : Identifier) (patch : Fields) : Entries :=
  es.map fun e =>
    if e.1 = id then (id, e.2.overlay (patch.filter (·.1 ≠ Path.primaryKey))) else e

def delete (es : Entries) (id : Identifier) : Entries := es.eraseP (·.1 == id)

variable {es : Entries} {id : Identifier}

theorem update_of_forall_ne (h : ∀ e ∈ es, e.1 ≠ id) (patch : Fields) :
    es.update id patch = es := by
  rw [update, List.map_congr_left fun e he => if_neg (h e he), List.map_id']

theorem delete_of_forall_ne (h : ∀ e ∈ es, e.1 ≠ id) : es.delete id = es := by
  refine List.eraseP_of_forall_not fun e he => ?_
  simpa using h e he

theorem lookup_delete_of_ne {other : Identifier} (h : id ≠ other) (es : Entries) :
    (es.delete id).lookup other = es.lookup other := by
  induction es with
  | nil => rfl
  | cons entry es ih =>
    obtain ⟨k, doc⟩ := entry
    rw [delete] at ih ⊢
    by_cases hk : k = id
    · subst hk
      have ho : (other == k) = false := beq_eq_false_iff_ne.mpr h.symm
      simp [List.lookup_cons, ho]
    · have hne : (k == id) = false := beq_eq_false_iff_ne.mpr hk
      simp only [List.eraseP_cons, hne, cond_false, List.lookup_cons, ih]

end Entries

theorem eraseIdx_append_cons (before : List Fields) (doc : Fields) (after : List Fields) :
    (before ++ doc :: after).eraseIdx before.length = before ++ after := by
  rw [List.eraseIdx_append_of_length_le (Nat.le_refl _), Nat.sub_self]
  rfl

namespace Collection.WellIndexed

variable {c c' : Collection} {id : Identifier} {doc : Fields}

theorem entries_insert (h : c.WellIndexed) (name : String) (v : Json) :
    c.entries.insert name v = (c.insert name v).map entries := by
  cases v with
  | obj fields =>
    simp only [Entries.insert, Collection.insert]
    cases hid : documentId? fields with
    | none => rfl
    | some id =>
      simp only [← h.isSome_positions]
      rw [knows]
      split
      · rfl
      · simp only [Except.map, entries, keyedDocuments_append, keyedDocuments_cons hid]
        rfl
  | _ => rfl

theorem of_insert (h : c.WellIndexed) {name : String} {v : Json} (hc : c.insert name v = .ok c') :
    c'.WellIndexed := by
  obtain ⟨fields, id, -, hid, hnew, rfl⟩ := insert_eq_ok hc
  exact h.insert hid hnew

theorem update_of_none (h : c.WellIndexed) {patch : Fields} (hc : c.update id patch = none) :
    c.entries.lookup id = none ∧ c.entries.update id patch = c.entries := by
  have hlacks := h.lacks (h.positions_eq_none (get?_of_update_eq_none hc))
  exact ⟨lookup_keyedDocuments_of_lacks hlacks,
    Entries.update_of_forall_ne (fun _ he => ne_of_mem_keyedDocuments hlacks he) patch⟩

theorem update_of_some (h : c.WellIndexed) {patch : Fields}
    (hc : c.update id patch = some (doc, c')) :
    c'.WellIndexed ∧ c'.entries = c.entries.update id patch ∧ c'.entries.lookup id = some doc := by
  obtain ⟨i, old, hi, hold, rfl, rfl⟩ := update_eq_some hc
  -- Cut at the document: those on both sides have other identifiers, so the patch passes them by.
  have hset := h.set hold patch
  obtain ⟨before, d, after, hsplit, rfl, hid, hbefore, hafter⟩ := h.split hi
  have hd : d = old := by
    rw [hsplit] at hold
    simpa using hold
  subst hd
  have hentries : entries { c with documents := c.documents.set before.length (patched d patch) } =
      keyedDocuments before ++ (id, patched d patch) :: keyedDocuments after := by
    have hpatched : documentId? (patched d patch) = some id := (documentId?_patched d patch).trans hid
    simp [entries, hsplit, keyedDocuments_append, keyedDocuments_cons hpatched]
  have hupdate : c.entries.update id patch =
      keyedDocuments before ++ (id, patched d patch) :: keyedDocuments after := by
    have hb := Entries.update_of_forall_ne (fun _ he => ne_of_mem_keyedDocuments hbefore he) patch
    have ha := Entries.update_of_forall_ne (fun _ he => ne_of_mem_keyedDocuments hafter he) patch
    rw [entries, hsplit, keyedDocuments_append, keyedDocuments_cons hid]
    rw [Entries.update] at hb ha ⊢
    rw [List.map_append, List.map_cons, hb, ha, if_pos rfl]
    rfl
  refine ⟨hset, hentries.trans hupdate.symm, ?_⟩
  rw [hentries, List.lookup_append, lookup_keyedDocuments_of_lacks hbefore]
  simp

theorem delete_of_none (h : c.WellIndexed) (hc : c.delete id = none) :
    c.entries.lookup id = none ∧ c.entries.delete id = c.entries := by
  have hlacks := h.lacks (h.positions_eq_none (get?_of_delete_eq_none hc))
  exact ⟨lookup_keyedDocuments_of_lacks hlacks,
    Entries.delete_of_forall_ne fun _ he => ne_of_mem_keyedDocuments hlacks he⟩

theorem delete_of_some (h : c.WellIndexed) (hc : c.delete id = some (doc, c')) :
    c'.WellIndexed ∧ c'.entries = c.entries.delete id ∧ c.entries.lookup id = some doc := by
  have hget := get?_of_delete hc
  obtain ⟨i, hi, -, rfl⟩ := delete_eq_some hc
  have herase := h.eraseIdx hi
  obtain ⟨before, d, after, hsplit, rfl, hid, hbefore, -⟩ := h.split hi
  have hskip : ∀ e ∈ keyedDocuments before, ¬(e.1 == id) = true := by
    intro e he
    simpa using ne_of_mem_keyedDocuments hbefore he
  have hfirst : ((id, d) :: keyedDocuments after).eraseP (·.1 == id) = keyedDocuments after :=
    List.eraseP_cons_of_pos (beq_self_eq_true id)
  refine ⟨herase, ?_, (h.get?_eq_lookup id).symm.trans hget⟩
  rw [entries, entries, hsplit, keyedDocuments_append, keyedDocuments_cons hid, Entries.delete,
    List.eraseP_append_right _ hskip, hfirst, ← keyedDocuments_append]
  exact congrArg keyedDocuments (eraseIdx_append_cons before d after)

theorem get?_of_delete_of_ne (h : c.WellIndexed) (hc : c.delete id = some (doc, c'))
    {other : Identifier} (hne : id ≠ other) : c'.get? other = c.get? other := by
  obtain ⟨hindexed, hentries, -⟩ := h.delete_of_some hc
  rw [hindexed.get?_eq_lookup, h.get?_eq_lookup, hentries, Entries.lookup_delete_of_ne hne]

theorem documents_update (h : c.WellIndexed) {patch : Fields}
    (hc : c.update id patch = some (doc, c')) :
    c'.documents = c.documents.map fun d => if documentId? d = some id then doc else d := by
  obtain ⟨i, old, hi, -, rfl, rfl⟩ := update_eq_some hc
  obtain ⟨before, d, after, hsplit, rfl, hid, hbefore, hafter⟩ := h.split hi
  have hkept {docs : List Fields} (hlacks : Lacks docs id) (new : Fields) :
      (docs.map fun d => if documentId? d = some id then new else d) = docs := by
    rw [List.map_congr_left fun d hd => if_neg (hlacks d hd), List.map_id']
  simp [hsplit, hid, hkept hbefore, hkept hafter]

theorem documents_delete (h : c.WellIndexed) (hc : c.delete id = some (doc, c')) :
    c'.documents = c.documents.filter fun d => documentId? d ≠ some id := by
  obtain ⟨i, hi, -, rfl⟩ := delete_eq_some hc
  obtain ⟨before, d, after, hsplit, rfl, hid, hbefore, hafter⟩ := h.split hi
  have hkept {docs : List Fields} (hlacks : Lacks docs id) :
      (docs.filter fun d => documentId? d ≠ some id) = docs :=
    List.filter_eq_self.mpr fun d hd => decide_eq_true (hlacks d hd)
  rw [hsplit, List.filter_append, List.filter_cons_of_neg (by simp [hid]), hkept hbefore,
    hkept hafter, eraseIdx_append_cons]

theorem get?_of_update_of_ne (h : c.WellIndexed) {patch : Fields}
    (hc : c.update id patch = some (doc, c')) {other : Identifier} (hne : id ≠ other) :
    c'.get? other = c.get? other := by
  obtain ⟨i, old, hi, -, -, rfl⟩ := update_eq_some hc
  rw [get?, get?]
  cases hj : c.positions[other]? with
  | none => rfl
  | some j =>
    have hij : i ≠ j := by
      rintro rfl
      exact hne (Option.some.inj (((h.indexed id i).mp hi).symm.trans ((h.indexed other i).mp hj)))
    simp [List.getElem?_set_ne hij]

end Collection.WellIndexed

def WellIndexed (s : Store) : Prop := ∀ name, (s.collection name).WellIndexed

variable {s s' : Store} {name : String}

theorem wellIndexed_empty : empty.WellIndexed := fun _ => Collection.wellIndexed_empty

theorem WellIndexed.put (h : s.WellIndexed) {c : Collection} (hc : c.WellIndexed) (name : String) :
    (s.put name c).WellIndexed := by
  intro other
  rw [collection_put]
  split
  · exact hc
  · exact h other

theorem WellIndexed.insert (h : s.WellIndexed) (name : String) (v : Json) :
    (s.insert name v).2.WellIndexed := by
  rw [Store.insert]
  split
  · rename_i c hc
    exact h.put ((h name).of_insert hc) name
  · exact h.put (h name) name

theorem WellIndexed.insertAll (h : s.WellIndexed) {docs : List Json}
    (hs : s.insertAll name docs = .ok s') : s'.WellIndexed := by
  induction docs generalizing s with
  | nil => cases hs; exact h
  | cons doc docs ih =>
    rw [Store.insertAll] at hs
    have hinsert := h.insert name doc
    split at hs
    · rename_i s₁ heq
      rw [heq] at hinsert
      exact ih hinsert hs
    · cases hs

theorem WellIndexed.loadSnapshot {folder : Route} {snapshot : Snapshot} (h : s.WellIndexed)
    (hs : loadSnapshot folder s snapshot = .ok s') : s'.WellIndexed := by
  unfold Store.loadSnapshot at hs
  split at hs
  · cases hs
  · rename_i docs _
    cases hall : (s.put snapshot.collection (s.collection snapshot.collection)).insertAll
        snapshot.collection docs with
    | error e => rw [hall] at hs; cases hs
    | ok s₁ =>
      rw [hall] at hs
      cases hs
      exact (h.put (h snapshot.collection) snapshot.collection).insertAll hall

theorem WellIndexed.loadSnapshots {folder : Route} {snapshots : List Snapshot} (h : s.WellIndexed)
    (hs : loadSnapshots folder s snapshots = .ok s') : s'.WellIndexed := by
  induction snapshots generalizing s with
  | nil => cases hs; exact h
  | cons snapshot rest ih =>
    rw [Store.loadSnapshots] at hs
    cases hone : Store.loadSnapshot folder s snapshot with
    | error e => rw [hone] at hs; cases hs
    | ok s₁ =>
      rw [hone] at hs
      exact ih (h.loadSnapshot hone) hs

theorem wellIndexed_load {folder : Route} {disk : Disk} {loaded : Loaded}
    (h : load folder disk = .ok loaded) : loaded.store.WellIndexed := by
  unfold load at h
  split at h
  · cases h
    exact wellIndexed_empty
  · cases h
  · rename_i t _ _
    cases hall : loadSnapshots folder empty (snapshotsAmong t.filesOf) with
    | error e => simp only [hall] at h; cases h
    | ok s₁ =>
      simp only [hall] at h
      cases h
      exact wellIndexed_empty.loadSnapshots hall

/-- Stores as they are at first: empty, or read from a folder. -/
inductive IsOpened : Store → Prop
  | empty : IsOpened .empty
  | loaded {folder : Route} {disk : Disk} {l : Loaded} (h : load folder disk = .ok l) :
    IsOpened l.store

theorem IsOpened.wellIndexed (h : s.IsOpened) : s.WellIndexed := by
  cases h with
  | empty => exact wellIndexed_empty
  | loaded h => exact wellIndexed_load h

inductive Call where
  | insert (name : String) (doc : Json)
  | update (name : String) (id : Identifier) (patch : Fields)
  | delete (name : String) (id : Identifier)
  | get (name : String) (id : Identifier)
  | countAll (name : String)
  | rows (name : String)

inductive Answer where
  | inserted (outcome : Except InsertError Unit)
  | document (doc : Option Fields)
  | count (n : Nat)
  | documents (docs : List Json)
  deriving DecidableEq

def Call.run (s : Store) : Call → Answer × Store
  | insert name doc =>
    match s.insert name doc with
    | (outcome, s) => (.inserted outcome, s)
  | update name id patch =>
    match s.update name id patch with
    | (doc, s) => (.document doc, s)
  | delete name id =>
    match s.delete name id with
    | (doc, s) => (.document doc, s)
  | get name id => (.document (s.get? name id), s)
  | countAll name => (.count (s.countAll name), s)
  | rows name => (.documents (s.aggregate name []), s)

abbrev Ledger := String → Entries

def Ledger.put (l : Ledger) (name : String) (es : Entries) : Ledger :=
  fun other => if name = other then es else l other

def Call.runOn (l : Ledger) : Call → Answer × Ledger
  | insert name doc =>
    match (l name).insert name doc with
    | .ok es => (.inserted (.ok ()), l.put name es)
    | .error e => (.inserted (.error e), l)
  | update name id patch =>
    let es := (l name).update id patch
    (.document (es.lookup id), l.put name es)
  | delete name id => (.document ((l name).lookup id), l.put name ((l name).delete id))
  | get name id => (.document ((l name).lookup id), l)
  | countAll name => (.count (l name).length, l)
  | rows name => (.documents ((l name).map fun e => .obj e.2), l)

/-- The answers to calls one after another, and the store after them. -/
def runCalls (s : Store) : List Call → List Answer × Store
  | [] => ([], s)
  | c :: cs =>
    match c.run s with
    | (answer, s) =>
      match s.runCalls cs with
      | (answers, s) => (answer :: answers, s)

def Ledger.runCalls (l : Ledger) : List Call → List Answer × Ledger
  | [] => ([], l)
  | c :: cs =>
    match c.runOn l with
    | (answer, l) =>
      match l.runCalls cs with
      | (answers, l) => (answer :: answers, l)

def ledger (s : Store) : Ledger := fun name => (s.collection name).entries

theorem ledger_put (s : Store) (name : String) (c : Collection) :
    (s.put name c).ledger = s.ledger.put name c.entries := by
  funext other
  rw [ledger, collection_put, Ledger.put]
  split <;> rfl

theorem Ledger.put_self (l : Ledger) (name : String) : l.put name (l name) = l := by
  funext other
  rw [put]
  split
  · rename_i heq
    rw [heq]
  · rfl

namespace WellIndexed

theorem run_insert (h : s.WellIndexed) (name : String) (doc : Json) :
    (Call.insert name doc).runOn s.ledger =
      (((Call.insert name doc).run s).1, ((Call.insert name doc).run s).2.ledger) := by
  have hinsert : (s.ledger name).insert name doc = ((s.collection name).insert name doc).map _ :=
    (h name).entries_insert name doc
  simp only [Call.runOn, Call.run, Store.insert, hinsert]
  cases (s.collection name).insert name doc with
  | ok c =>
    rw [ledger_put]
    rfl
  | error e =>
    rw [ledger_put]
    exact congrArg (Prod.mk _) (s.ledger.put_self name).symm

theorem run_update (h : s.WellIndexed) (name : String) (id : Identifier) (patch : Fields) :
    ((Call.update name id patch).run s).2.WellIndexed ∧
      (Call.update name id patch).runOn s.ledger =
        (((Call.update name id patch).run s).1, ((Call.update name id patch).run s).2.ledger) := by
  simp only [Call.runOn, Call.run, Store.update]
  cases hc : (s.collection name).update id patch with
  | none =>
    obtain ⟨hlookup, hupdate⟩ := (h name).update_of_none hc
    have hsame : (s.ledger name).update id patch = s.ledger name := hupdate
    rw [hsame, s.ledger.put_self]
    exact ⟨h, congrArg (fun doc => (Answer.document doc, s.ledger)) hlookup⟩
  | some p =>
    obtain ⟨hindexed, hentries, hlookup⟩ := (h name).update_of_some hc
    have hmoved : (s.ledger name).update id patch = p.2.entries := hentries.symm
    rw [hmoved, hlookup]
    exact ⟨h.put hindexed name, by rw [ledger_put]⟩

theorem run_delete (h : s.WellIndexed) (name : String) (id : Identifier) :
    ((Call.delete name id).run s).2.WellIndexed ∧
      (Call.delete name id).runOn s.ledger =
        (((Call.delete name id).run s).1, ((Call.delete name id).run s).2.ledger) := by
  simp only [Call.runOn, Call.run, Store.delete]
  cases hc : (s.collection name).delete id with
  | none =>
    obtain ⟨hlookup, hdelete⟩ := (h name).delete_of_none hc
    have hsame : (s.ledger name).delete id = s.ledger name := hdelete
    rw [hsame, s.ledger.put_self]
    exact ⟨h, congrArg (fun doc => (Answer.document doc, s.ledger)) hlookup⟩
  | some p =>
    obtain ⟨hindexed, hentries, hlookup⟩ := (h name).delete_of_some hc
    have hfound : (s.ledger name).lookup id = some p.1 := hlookup
    have hmoved : (s.ledger name).delete id = p.2.entries := hentries.symm
    rw [hmoved, hfound]
    exact ⟨h.put hindexed name, by rw [ledger_put]⟩

/-- A call on a store whose indexes are right is the same call on its entries, and leaves the
indexes right. -/
theorem run (h : s.WellIndexed) (c : Call) :
    (c.run s).2.WellIndexed ∧ c.runOn s.ledger = ((c.run s).1, (c.run s).2.ledger) := by
  cases c with
  | insert name doc => exact ⟨h.insert name doc, h.run_insert name doc⟩
  | update name id patch => exact h.run_update name id patch
  | delete name id => exact h.run_delete name id
  | get name id =>
    have hget : s.get? name id = (s.ledger name).lookup id := (h name).get?_eq_lookup id
    exact ⟨h, by simp only [Call.runOn, Call.run, hget]⟩
  | countAll name =>
    have hcount : s.countAll name = (s.ledger name).length := by
      rw [countAll, ← (h name).snd_entries, List.length_map]
      rfl
    exact ⟨h, by simp only [Call.runOn, Call.run, hcount]⟩
  | rows name =>
    have hrows : s.aggregate name [] = (s.ledger name).map fun e => .obj e.2 := by
      show (s.collection name).documents.map Json.obj = _
      rw [← (h name).snd_entries, List.map_map]
      rfl
    exact ⟨h, by simp only [Call.runOn, Call.run, hrows]⟩

theorem runCalls (h : s.WellIndexed) (cs : List Call) :
    (s.runCalls cs).2.WellIndexed ∧
      s.ledger.runCalls cs = ((s.runCalls cs).1, (s.runCalls cs).2.ledger) := by
  induction cs generalizing s with
  | nil => exact ⟨h, rfl⟩
  | cons c cs ih =>
    obtain ⟨hone, hstep⟩ := h.run c
    obtain ⟨hall, hrest⟩ := ih hone
    refine ⟨hall, ?_⟩
    rw [Ledger.runCalls, hstep]
    simp only [hrest]
    rfl

end WellIndexed

/-- After calls on a store that was empty or read from a folder, every document is an object with an
identifier, no two of a collection have the same one, and the index has these identifiers and no
others, each with the position of its document. All answers are those of lists of entries. -/
theorem runCalls_eq_ledger (h : s.IsOpened) (cs : List Call) :
    (∀ name : String,
      let c := (s.runCalls cs).2.collection name
      (∀ v ∈ c.rows, ∃ doc id, v = .obj doc ∧ documentId? doc = some id) ∧
      (c.documents.map documentId?).Nodup ∧
      (∀ (id : Identifier) (i : Nat),
        c.positions[id]? = some i ↔ c.documents[i]?.bind documentId? = some id) ∧
      ∀ (id : Identifier) (i : Nat), c.positions[id]? = some i → i < c.documents.length) ∧
    s.ledger.runCalls cs = ((s.runCalls cs).1, (s.runCalls cs).2.ledger) := by
  obtain ⟨hindexed, hanswers⟩ := h.wellIndexed.runCalls cs
  refine ⟨fun name => ⟨?_, ?_, ?_, ?_⟩, hanswers⟩
  · intro v hv
    obtain ⟨doc, hdoc, rfl⟩ := List.mem_map.mp hv
    obtain ⟨id, hid⟩ := Option.isSome_iff_exists.mp ((hindexed name).keyed doc hdoc)
    exact ⟨doc, id, rfl, hid⟩
  · exact (hindexed name).nodup
  · exact (hindexed name).indexed
  · exact fun _ _ hi => (hindexed name).lt_length hi

/-- Two deals that are read from a folder, a third that comes with an identifier already taken in
another spelling, and one that takes the place of the first. -/
theorem runCalls_eq_ledger_deals :
    let a : Fields := [("_id", .str "urn:uuid:00000000-0000-0000-0000-00000000000A")]
    let b : Fields := [("_id", .str "0000000000000000000000000000000b")]
    let c : Fields := [("_id", .str "0000000000000000000000000000000C"), ("title", .str "Initech")]
    let disk : Disk := ⟨.folder [("data", .folder [("deals.json",
      .file (Json.arr [.obj a, .obj b]).compact)])], []⟩
    let calls : List Call := [
      .insert "deals" (.obj [("_id", .str "0000000000000000000000000000000a")]),
      .delete "deals" ⟨10⟩, .insert "deals" (.obj c),
      .update "deals" ⟨12⟩ [("_id", .null), ("stage", .str "WON")], .get "deals" ⟨10⟩,
      .rows "deals", .countAll "contacts"]
    let won : Fields := c ++ [("stage", .str "WON")]
    ∃ l, load ⟨"data"⟩ disk = .ok l ∧
      (l.store.ledger.runCalls calls).1 = [.inserted (.error (.duplicate "deals" ⟨10⟩)),
        .document (some a), .inserted (.ok ()), .document (some won), .document none,
        .documents [.obj b, .obj won], .count 0] := by
  intro a b c disk calls won
  have hrun : ((load ⟨"data"⟩ disk).toOption.map fun l => (l.store.runCalls calls).1) =
      some [.inserted (.error (.duplicate "deals" ⟨10⟩)), .document (some a), .inserted (.ok ()),
        .document (some won), .document none, .documents [.obj b, .obj won], .count 0] := by decide +kernel
  obtain ⟨l, hl, hanswers⟩ := Option.map_eq_some_iff.mp hrun
  have hload : load ⟨"data"⟩ disk = .ok l := by
    cases h : load ⟨"data"⟩ disk with
    | error e => rw [h] at hl; cases hl
    | ok l' => rw [h] at hl; cases hl; rfl
  exact ⟨l, hload, by rw [(runCalls_eq_ledger (.loaded hload) calls).2, hanswers]⟩

end Clientele.Store
