import Mathlib.Data.List.Nodup
import Clientele.Proofs.Json.Fields
import Clientele.Proofs.Store.Basic

/-!
What a collection knows of positions is where its documents are. The index is moved along with the
documents by every write, and what is found through it is what a search of the documents would find.
-/
set_option autoImplicit false

namespace Clientele.Store

abbrev Entries := List (Identifier × Fields)

def keyedDocuments (docs : List Fields) : Entries :=
  docs.filterMap fun doc => (documentId? doc).map fun id => (id, doc)

theorem keyedDocuments_append (docs docs' : List Fields) :
    keyedDocuments (docs ++ docs') = keyedDocuments docs ++ keyedDocuments docs' :=
  List.filterMap_append

theorem keyedDocuments_cons {doc : Fields} {id : Identifier} (h : documentId? doc = some id)
    (docs : List Fields) : keyedDocuments (doc :: docs) = (id, doc) :: keyedDocuments docs := by
  simp [keyedDocuments, h]

theorem documentId?_of_mem_keyedDocuments {docs : List Fields} {p : Identifier × Fields}
    (h : p ∈ keyedDocuments docs) : p.2 ∈ docs ∧ documentId? p.2 = some p.1 := by
  obtain ⟨doc, hdoc, hp⟩ := List.mem_filterMap.mp h
  obtain ⟨id, hid, rfl⟩ := Option.map_eq_some_iff.mp hp
  exact ⟨hdoc, hid⟩

def Lacks (docs : List Fields) (id : Identifier) : Prop := ∀ doc ∈ docs, documentId? doc ≠ some id

theorem ne_of_mem_keyedDocuments {docs : List Fields} {id : Identifier} (h : Lacks docs id)
    {p : Identifier × Fields} (hp : p ∈ keyedDocuments docs) : p.1 ≠ id := by
  obtain ⟨hdoc, hid⟩ := documentId?_of_mem_keyedDocuments hp
  rintro rfl
  exact h p.2 hdoc hid

theorem lookup_keyedDocuments_of_lacks {docs : List Fields} {id : Identifier}
    (h : Lacks docs id) : (keyedDocuments docs).lookup id = none := by
  rw [List.lookup_eq_none_iff]
  intro p hp
  simpa using (ne_of_mem_keyedDocuments h hp).symm

namespace Collection

def entries (c : Collection) : Entries := keyedDocuments c.documents

/-- Every document has an identifier, and the position known of an identifier is that of the
document that has it. -/
structure WellIndexed (c : Collection) : Prop where
  keyed : ∀ doc ∈ c.documents, (documentId? doc).isSome
  indexed : ∀ id i, c.positions[id]? = some i ↔ c.documents[i]?.bind documentId? = some id

variable {c c' : Collection} {id : Identifier} {i : Nat} {doc : Fields}

theorem wellIndexed_empty : empty.WellIndexed where
  keyed _ h := nomatch h
  indexed id i := by simp [empty]

namespace WellIndexed

theorem exists_getElem? (h : c.WellIndexed) (hi : c.positions[id]? = some i) :
    ∃ doc, c.documents[i]? = some doc ∧ documentId? doc = some id :=
  Option.bind_eq_some_iff.mp ((h.indexed id i).mp hi)

theorem lt_length (h : c.WellIndexed) (hi : c.positions[id]? = some i) :
    i < c.documents.length := by
  obtain ⟨doc, hdoc, -⟩ := h.exists_getElem? hi
  exact (List.getElem?_eq_some_iff.mp hdoc).1

theorem positions_eq_none (h : c.WellIndexed) (hnone : c.get? id = none) :
    c.positions[id]? = none := by
  cases hi : c.positions[id]? with
  | none => rfl
  | some i =>
    obtain ⟨doc, hdoc, -⟩ := h.exists_getElem? hi
    rw [get?, hi, Option.bind_some, hdoc] at hnone
    cases hnone

theorem nodup (h : c.WellIndexed) : (c.documents.map documentId?).Nodup := by
  refine List.pairwise_iff_getElem.mpr fun i j hi hj hij heq => ?_
  simp only [List.getElem_map, List.length_map] at hi hj heq
  obtain ⟨id, hid⟩ := Option.isSome_iff_exists.mp (h.keyed _ (List.getElem_mem hi))
  have hfirst := (h.indexed id i).mpr (by rw [List.getElem?_eq_getElem hi]; exact hid)
  have hsecond := (h.indexed id j).mpr (by rw [List.getElem?_eq_getElem hj]; exact heq.symm.trans hid)
  cases hfirst.symm.trans hsecond
  exact Nat.lt_irrefl _ hij

theorem lacks (h : c.WellIndexed) (hnone : c.positions[id]? = none) : Lacks c.documents id := by
  intro doc hdoc hid
  obtain ⟨i, hi⟩ := List.mem_iff_getElem?.mp hdoc
  have hsome := (h.indexed id i).mpr (by rw [hi]; exact hid)
  cases hnone.symm.trans hsome

theorem split (h : c.WellIndexed) (hi : c.positions[id]? = some i) :
    ∃ before doc after, c.documents = before ++ doc :: after ∧ before.length = i ∧
      documentId? doc = some id ∧ Lacks before id ∧ Lacks after id := by
  obtain ⟨doc, hdoc, hid⟩ := h.exists_getElem? hi
  obtain ⟨hlt, hget⟩ := List.getElem?_eq_some_iff.mp hdoc
  have hsplit : c.documents = c.documents.take i ++ doc :: c.documents.drop (i + 1) := by
    rw [← hget, List.getElem_cons_drop, List.take_append_drop]
  have hnodup := h.nodup
  rw [hsplit, List.map_append, List.map_cons, hid] at hnodup
  obtain ⟨-, hafter, hbefore⟩ := List.pairwise_append.mp hnodup
  refine ⟨_, doc, _, hsplit, List.length_take_of_le (Nat.le_of_lt hlt), hid, ?_, ?_⟩
  · intro d hd
    exact hbefore _ (List.mem_map_of_mem hd) _ List.mem_cons_self
  · intro d hd heq
    exact (List.pairwise_cons.mp hafter).1 _ (List.mem_map_of_mem hd) heq.symm

theorem isSome_positions (h : c.WellIndexed) (id : Identifier) :
    c.knows id = (c.entries.lookup id).isSome := by
  rw [knows, Std.TreeMap.contains_eq_isSome_getElem?]
  cases hi : c.positions[id]? with
  | none => rw [entries, lookup_keyedDocuments_of_lacks (h.lacks hi)]; rfl
  | some i =>
    obtain ⟨before, doc, after, hsplit, -, hid, hbefore, -⟩ := h.split hi
    rw [entries, hsplit, keyedDocuments_append, keyedDocuments_cons hid, List.lookup_append,
      lookup_keyedDocuments_of_lacks hbefore]
    simp

theorem get?_eq_lookup (h : c.WellIndexed) (id : Identifier) : c.get? id = c.entries.lookup id := by
  rw [get?]
  cases hi : c.positions[id]? with
  | none => rw [entries, lookup_keyedDocuments_of_lacks (h.lacks hi)]; rfl
  | some i =>
    obtain ⟨before, doc, after, hsplit, rfl, hid, hbefore, -⟩ := h.split hi
    rw [entries, hsplit, keyedDocuments_append, keyedDocuments_cons hid, List.lookup_append,
      lookup_keyedDocuments_of_lacks hbefore, Option.bind_some]
    simp

theorem filter_documentId? (h : c.WellIndexed) (id : Identifier) :
    c.documents.filter (documentId? · = some id) = (c.get? id).toList := by
  have hnone {docs : List Fields} (hlacks : Lacks docs id) :
      docs.filter (documentId? · = some id) = [] :=
    List.filter_eq_nil_iff.mpr fun doc hdoc => by simpa using hlacks doc hdoc
  rw [get?]
  cases hi : c.positions[id]? with
  | none => exact hnone (h.lacks hi)
  | some i =>
    obtain ⟨before, doc, after, hsplit, rfl, hid, hbefore, hafter⟩ := h.split hi
    rw [hsplit, List.filter_append, List.filter_cons_of_pos (by simpa using hid), hnone hbefore,
      hnone hafter]
    simp

theorem get?_of_mem (h : c.WellIndexed) (hdoc : doc ∈ c.documents)
    (hid : documentId? doc = some id) : c.get? id = some doc := by
  obtain ⟨i, hi⟩ := List.mem_iff_getElem?.mp hdoc
  have hposition := (h.indexed id i).mpr (by rw [hi]; exact hid)
  rw [get?, hposition, Option.bind_some, hi]

theorem documentId?_of_get? (h : c.WellIndexed) (hget : c.get? id = some doc) :
    documentId? doc = some id := by
  obtain ⟨i, hi, hdoc⟩ := Option.bind_eq_some_iff.mp hget
  obtain ⟨d, hd, hid⟩ := h.exists_getElem? hi
  cases hdoc.symm.trans hd
  exact hid

theorem nodup_ids (h : c.WellIndexed) : (c.documents.filterMap documentId?).Nodup := by
  have hids : c.documents.filterMap documentId? =
      (c.documents.map documentId?).filterMap fun id? => id? := by
    rw [List.filterMap_map]
    rfl
  rw [hids]
  exact h.nodup.filterMap fun a b id ha hb => ha.trans hb.symm

theorem snd_entries (h : c.WellIndexed) : c.entries.map (·.2) = c.documents := by
  have hkeyed : ∀ docs : List Fields, (∀ doc ∈ docs, (documentId? doc).isSome) →
      (keyedDocuments docs).map (·.2) = docs := by
    intro docs hdocs
    induction docs with
    | nil => rfl
    | cons doc docs ih =>
      rw [List.forall_mem_cons] at hdocs
      obtain ⟨id, hid⟩ := Option.isSome_iff_exists.mp hdocs.1
      rw [keyedDocuments_cons hid, List.map_cons, ih hdocs.2]
  exact hkeyed c.documents h.keyed

end WellIndexed

theorem positions_insert (c : Collection) (id other : Identifier) (i : Nat) :
    (c.positions.insert id i)[other]? = if id = other then some i else c.positions[other]? := by
  rw [Std.TreeMap.getElem?_insert]
  simp only [Std.LawfulEqCmp.compare_eq_iff_eq]

theorem documentId?_patched (doc patch : Fields) :
    documentId? (patched doc patch) = documentId? doc := by
  have hkeys : ∀ f ∈ patch.filter (·.1 ≠ Path.primaryKey), f.1 ≠ Path.primaryKey := by
    intro f hf
    simpa using (List.mem_filter.mp hf).2
  rw [documentId?, patched, Fields.get?_overlay_of_forall_ne hkeys, documentId?]

namespace WellIndexed

theorem insert (h : c.WellIndexed) {fields : Fields} (hid : documentId? fields = some id)
    (hnew : c.knows id = false) :
    WellIndexed ⟨c.documents ++ [fields], c.positions.insert id c.documents.length⟩ where
  keyed doc hdoc := by
    rcases List.mem_append.mp hdoc with hdoc | hdoc
    · exact h.keyed doc hdoc
    · rw [List.mem_singleton.mp hdoc, hid]
      rfl
  indexed other j := by
    have hlength : ∀ k, c.positions[k]? = some j → j < c.documents.length := fun k => h.lt_length
    have hmissing : c.positions[id]? = none := by
      rwa [knows, Std.TreeMap.contains_eq_isSome_getElem?, Option.isSome_eq_false_iff,
        Option.isNone_iff_eq_none] at hnew
    rw [positions_insert]
    rcases Nat.lt_trichotomy j c.documents.length with hj | rfl | hj
    · rw [List.getElem?_append_left hj, ← h.indexed]
      by_cases hother : id = other
      · subst hother
        simp [hmissing, Nat.ne_of_gt hj]
      · rw [if_neg hother]
    · rw [List.getElem?_concat_length, Option.bind_some, hid]
      by_cases hother : id = other
      · simp [hother]
      · have hnone : c.positions[other]? ≠ some c.documents.length :=
          fun hk => Nat.lt_irrefl _ (hlength other hk)
        simp [hother, hnone]
    · have hnone : c.positions[other]? ≠ some j :=
        fun hk => Nat.lt_asymm hj (hlength other hk)
      rw [List.getElem?_eq_none (by rw [List.length_append]; exact hj)]
      by_cases hother : id = other
      · simp [hother, Nat.ne_of_lt hj]
      · simp [hother, hnone]

theorem set (h : c.WellIndexed) (hi : c.documents[i]? = some doc) (patch : Fields) :
    WellIndexed { c with documents := c.documents.set i (patched doc patch) } where
  keyed d hd := by
    rcases List.mem_or_eq_of_mem_set hd with hd | rfl
    · exact h.keyed d hd
    · rw [documentId?_patched]
      exact h.keyed doc (List.mem_of_getElem? hi)
  indexed id j := by
    rw [h.indexed, List.getElem?_set]
    obtain ⟨hlt, -⟩ := List.getElem?_eq_some_iff.mp hi
    by_cases hij : i = j
    · subst hij
      rw [if_pos rfl, if_pos hlt, hi, Option.bind_some, Option.bind_some, documentId?_patched]
    · rw [if_neg hij]

theorem eraseIdx (h : c.WellIndexed) (hi : c.positions[id]? = some i) :
    WellIndexed ⟨c.documents.eraseIdx i,
      (c.positions.erase id).map fun _ j => if i < j then j - 1 else j⟩ where
  keyed doc hdoc := h.keyed doc (List.mem_of_mem_eraseIdx hdoc)
  indexed other j := by
    rw [Std.TreeMap.getElem?_map, Std.TreeMap.getElem?_erase, List.getElem?_eraseIdx]
    simp only [Std.LawfulEqCmp.compare_eq_iff_eq]
    have hat := (h.indexed id i).mp hi
    by_cases hother : id = other
    · -- The erased identifier has no position left, and no other document has it.
      subst hother
      simp only [if_true, Option.map_none, reduceCtorEq, false_iff]
      split
      · rename_i hj
        rw [← h.indexed, hi]
        simp; omega
      · rw [← h.indexed, hi]
        simp; omega
    · rw [if_neg hother]
      have hne : c.positions[other]? ≠ some i := by
        intro hk
        cases hat.symm.trans ((h.indexed other i).mp hk)
        exact hother rfl
      rw [Option.map_eq_some_iff]
      constructor
      · rintro ⟨k, hk, rfl⟩
        have hki : k ≠ i := fun heq => hne (heq ▸ hk)
        by_cases hlt : i < k
        · have hsucc : k - 1 + 1 = k := by omega
          rw [if_pos hlt, if_neg (by omega), hsucc]
          exact (h.indexed other k).mp hk
        · rw [if_neg hlt, if_pos (by omega)]
          exact (h.indexed other k).mp hk
      · intro hj
        split at hj
        · rename_i hlt
          exact ⟨j, (h.indexed other j).mpr hj, if_neg (by omega)⟩
        · rename_i hlt
          have hsucc := (h.indexed other (j + 1)).mpr hj
          have hji : j + 1 ≠ i := fun heq => hne (heq ▸ hsucc)
          exact ⟨j + 1, hsucc, by rw [if_pos (by omega)]; omega⟩

end WellIndexed

end Collection

end Clientele.Store
