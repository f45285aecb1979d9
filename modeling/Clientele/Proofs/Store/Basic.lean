import Clientele.Store.Basic

/-!
What a write changes in a store: the collection that it names and no other, and of the identifiers
that this one knows at most the one of the document.
-/
set_option autoImplicit false

namespace Clientele

instance : Std.TransOrd Identifier :=
  inferInstanceAs (Std.TransCmp (compareOn fun i : Identifier => i.bits.toNat))

instance : Std.LawfulEqOrd Identifier where
  compare_self := Nat.compare_eq_eq.mpr rfl
  eq_of_compare {a b} h := by
    obtain ⟨a⟩ := a
    obtain ⟨b⟩ := b
    exact congrArg Identifier.mk (BitVec.eq_of_toNat_eq (Nat.compare_eq_eq.mp h))

namespace Store

namespace Collection

variable {c c' : Collection} {id : Identifier} {doc : Fields}

def knows (c : Collection) (id : Identifier) : Bool := c.positions.contains id

theorem insert_eq_ok {name : String} {v : Json} (h : c.insert name v = .ok c') :
    ∃ fields id, v = .obj fields ∧ documentId? fields = some id ∧ c.knows id = false ∧
      c' = ⟨c.documents ++ [fields], c.positions.insert id c.documents.length⟩ := by
  cases v with
  | obj fields =>
    simp only [insert] at h
    cases hid : documentId? fields with
    | none => simp [hid] at h
    | some id =>
      simp only [hid] at h
      split at h
      · cases h
      · rename_i hknown
        cases h
        exact ⟨fields, id, rfl, hid, Bool.eq_false_iff.mpr hknown, rfl⟩
  | _ => cases h

theorem insert_obj {fields : Fields} (hid : documentId? fields = some id)
    (hknown : c.knows id = false) (name : String) :
    c.insert name (.obj fields) =
      .ok ⟨c.documents ++ [fields], c.positions.insert id c.documents.length⟩ := by
  rw [knows] at hknown
  simp only [insert, hid, hknown]
  rfl

theorem knows_insert (documents : List Fields) (other : Identifier) (i : Nat) :
    (⟨documents, c.positions.insert id i⟩ : Collection).knows other =
      (id == other || c.knows other) := by
  rw [knows, Std.TreeMap.contains_insert, knows]
  by_cases h : id = other
  · subst h
    simp
  · have hne : compare id other ≠ .eq := fun heq => h (Std.LawfulEqOrd.eq_of_compare heq)
    rw [beq_eq_false_iff_ne.mpr h, beq_eq_false_iff_ne.mpr hne]

theorem update_eq_some {patch : Fields} (h : c.update id patch = some (doc, c')) :
    ∃ i old, c.positions[id]? = some i ∧ c.documents[i]? = some old ∧ doc = patched old patch ∧
      c' = { c with documents := c.documents.set i (patched old patch) } := by
  obtain ⟨i, hi, h⟩ := Option.bind_eq_some_iff.mp h
  obtain ⟨old, hold, h⟩ := Option.map_eq_some_iff.mp h
  cases h
  exact ⟨i, old, hi, hold, rfl, rfl⟩

theorem delete_eq_some (h : c.delete id = some (doc, c')) :
    ∃ i, c.positions[id]? = some i ∧ c.documents[i]? = some doc ∧
      c' = ⟨c.documents.eraseIdx i,
        (c.positions.erase id).map fun _ j => if i < j then j - 1 else j⟩ := by
  obtain ⟨i, hi, h⟩ := Option.bind_eq_some_iff.mp h
  obtain ⟨old, hold, h⟩ := Option.map_eq_some_iff.mp h
  cases h
  exact ⟨i, hi, hold, rfl⟩

theorem knows_updated {patch : Fields} (h : c.update id patch = some (doc, c')) : c.knows id := by
  obtain ⟨i, _, hi, -⟩ := update_eq_some h
  rw [knows, Std.TreeMap.contains_eq_isSome_getElem?, hi]
  rfl

theorem update_of_get? (h : c.get? id = some doc) (patch : Fields) :
    ∃ c', c.update id patch = some (patched doc patch, c') := by
  obtain ⟨i, hi, hdoc⟩ := Option.bind_eq_some_iff.mp h
  exact ⟨_, by rw [update, hi, Option.bind_some, hdoc]; rfl⟩

theorem get?_of_insert {name : String} (h : c.insert name (.obj doc) = .ok c')
    (hid : documentId? doc = some id) : c'.get? id = some doc := by
  obtain ⟨fields, id', hfields, hid', -, rfl⟩ := insert_eq_ok h
  cases hfields
  cases hid.symm.trans hid'
  simp [get?]

theorem get?_of_update {patch : Fields} (h : c.update id patch = some (doc, c')) :
    c'.get? id = some doc := by
  obtain ⟨i, old, hi, hold, rfl, rfl⟩ := update_eq_some h
  obtain ⟨hlt, -⟩ := List.getElem?_eq_some_iff.mp hold
  rw [get?, hi, Option.bind_some, List.getElem?_set_self hlt]

theorem isSome_get?_of_update {patch : Fields} (h : c.update id patch = some (doc, c'))
    (other : Identifier) : (c'.get? other).isSome = (c.get? other).isSome := by
  obtain ⟨i, old, -, -, -, rfl⟩ := update_eq_some h
  simp only [get?]
  cases c.positions[other]? with
  | none => rfl
  | some j =>
    rw [Option.bind_some, Option.bind_some, Bool.eq_iff_iff, isSome_getElem?, isSome_getElem?,
      List.length_set]

theorem delete_of_get? (h : c.get? id = some doc) : ∃ c', c.delete id = some (doc, c') := by
  obtain ⟨i, hi, hdoc⟩ := Option.bind_eq_some_iff.mp h
  exact ⟨_, by rw [delete, hi, Option.bind_some, hdoc]; rfl⟩

theorem get?_of_delete (h : c.delete id = some (doc, c')) : c.get? id = some doc := by
  obtain ⟨i, hi, hdoc, -⟩ := delete_eq_some h
  rw [get?, hi, Option.bind_some, hdoc]

theorem get?_of_update_eq_none {patch : Fields} (h : c.update id patch = none) :
    c.get? id = none := by
  rw [get?, Option.bind_eq_none_iff]
  exact fun i hi => Option.map_eq_none_iff.mp (Option.bind_eq_none_iff.mp h i hi)

theorem get?_of_delete_eq_none (h : c.delete id = none) : c.get? id = none := by
  rw [get?, Option.bind_eq_none_iff]
  exact fun i hi => Option.map_eq_none_iff.mp (Option.bind_eq_none_iff.mp h i hi)

theorem knows_of_delete (h : c.delete id = some (doc, c')) {other : Identifier}
    (hother : c'.knows other) : c.knows other := by
  obtain ⟨i, -, -, rfl⟩ := delete_eq_some h
  exact Std.TreeMap.contains_of_contains_erase (Std.TreeMap.contains_of_contains_map hother)

/-! Where the documents come from that are there after a write. -/

variable {d : Fields}

theorem mem_insert {name : String} {v : Json} (h : c.insert name v = .ok c')
    (hd : d ∈ c'.documents) : d ∈ c.documents ∨ v = .obj d := by
  obtain ⟨fields, _, rfl, -, -, rfl⟩ := insert_eq_ok h
  rcases List.mem_append.mp hd with hd | hd
  · exact .inl hd
  · exact .inr (List.mem_singleton.mp hd ▸ rfl)

theorem mem_update {patch : Fields} (h : c.update id patch = some (doc, c'))
    (hd : d ∈ c'.documents) :
    d ∈ c.documents ∨ ∃ old ∈ c.documents, d = patched old patch := by
  obtain ⟨i, old, -, hold, -, rfl⟩ := update_eq_some h
  rcases List.mem_or_eq_of_mem_set hd with hd | rfl
  · exact .inl hd
  · exact .inr ⟨old, List.mem_of_getElem? hold, rfl⟩

theorem mem_updated {patch : Fields} (h : c.update id patch = some (doc, c'))
    (hd : d ∈ c'.documents) : d ∈ c.documents ∨ d = doc := by
  obtain ⟨i, old, -, -, rfl, rfl⟩ := update_eq_some h
  exact List.mem_or_eq_of_mem_set hd

theorem mem_delete (h : c.delete id = some (doc, c')) (hd : d ∈ c'.documents) :
    d ∈ c.documents := by
  obtain ⟨i, -, -, rfl⟩ := delete_eq_some h
  exact List.mem_of_mem_eraseIdx hd

end Collection

variable {s s' : Store} {name : String}

theorem find?_replaced_of_ne {other : String} (hne : name ≠ other) (c : Collection)
    (cs : List (String × Collection)) :
    (cs.map fun p => if p.1 == name then (name, c) else p).find? (·.1 == other) =
      cs.find? (·.1 == other) := by
  induction cs with
  | nil => rfl
  | cons p cs ih =>
    rw [List.map_cons, List.find?_cons, List.find?_cons, ih]
    by_cases hp : p.1 = name
    · have hbeq : (name == other) = false := beq_eq_false_iff_ne.mpr hne
      simp only [hp, BEq.rfl, if_true, hbeq]
    · have hbeq : (p.1 == name) = false := beq_eq_false_iff_ne.mpr hp
      simp only [hbeq, Bool.false_eq_true, if_false]

theorem find?_replaced_self (c : Collection) {cs : List (String × Collection)}
    (h : (cs.find? (·.1 == name)).isSome) :
    (cs.map fun p => if p.1 == name then (name, c) else p).find? (·.1 == name) =
      some (name, c) := by
  induction cs with
  | nil => cases h
  | cons p cs ih =>
    rw [List.map_cons, List.find?_cons]
    by_cases hp : p.1 = name
    · simp only [hp, BEq.rfl, if_true]
    · have hbeq : (p.1 == name) = false := beq_eq_false_iff_ne.mpr hp
      rw [List.find?_cons, hbeq] at h
      simp only [hbeq, Bool.false_eq_true, if_false]
      exact ih h

theorem collection_put (s : Store) (name : String) (c : Collection) (other : String) :
    (s.put name c).collection other = if name = other then c else s.collection other := by
  unfold put
  split
  · rename_i hthere
    have hfound : (s.collections.find? (·.1 == name)).isSome := by
      simpa [collection?] using hthere
    by_cases ho : name = other
    · subst ho
      rw [if_pos rfl, collection, collection?, find?_replaced_self c hfound]
      rfl
    · rw [if_neg ho, collection, collection?, find?_replaced_of_ne ho]
      rfl
  · rename_i hthere
    have hmissing : s.collections.find? (·.1 == name) = none := by
      rwa [collection?, Option.isSome_map, Option.not_isSome_iff_eq_none] at hthere
    by_cases ho : name = other
    · subst ho
      simp [collection, collection?, List.find?_append, hmissing]
    · simp [collection, collection?, List.find?_append, ho]

theorem mem_documents_put {c : Collection} {name other : String} {doc : Fields}
    (h : doc ∈ ((s.put name c).collection other).documents) :
    name = other ∧ doc ∈ c.documents ∨ doc ∈ (s.collection other).documents := by
  rw [collection_put] at h
  split at h
  · rename_i heq
    exact .inl ⟨heq, h⟩
  · exact .inr h

theorem collection_insert_of_error {doc : Json} {e : InsertError}
    (h : s.insert name doc = (.error e, s')) (other : String) :
    s'.collection other = s.collection other := by
  unfold insert at h
  split at h
  · cases h
  · cases h
    rw [collection_put]
    split
    · rename_i ho
      rw [ho]
    · rfl

theorem insert_eq_ok {doc : Json} (h : s.insert name doc = (.ok (), s')) :
    ∃ c, (s.collection name).insert name doc = .ok c ∧ s' = s.put name c := by
  unfold insert at h
  split at h
  · rename_i c hc
    cases h
    exact ⟨c, hc, rfl⟩
  · cases h

theorem update_eq_some {id : Identifier} {patch doc : Fields}
    (h : s.update name id patch = (some doc, s')) :
    ∃ c, (s.collection name).update id patch = some (doc, c) ∧ s' = s.put name c := by
  unfold update at h
  split at h
  · rename_i doc c hc
    cases h
    exact ⟨c, hc, rfl⟩
  · cases h

theorem update_eq_none {id : Identifier} {patch : Fields}
    (h : s.update name id patch = (none, s')) : s' = s := by
  unfold update at h
  split at h <;> cases h
  rfl

theorem update_of_get? {id : Identifier} {doc : Fields} (h : s.get? name id = some doc)
    (patch : Fields) : ∃ s', s.update name id patch = (some (Collection.patched doc patch), s') := by
  obtain ⟨c, hc⟩ := Collection.update_of_get? h patch
  exact ⟨s.put name c, by rw [update, hc]⟩

theorem delete_eq_some {id : Identifier} {doc : Fields}
    (h : s.delete name id = (some doc, s')) :
    ∃ c, (s.collection name).delete id = some (doc, c) ∧ s' = s.put name c := by
  unfold delete at h
  split at h
  · rename_i doc c hc
    cases h
    exact ⟨c, hc, rfl⟩
  · cases h

theorem get?_of_insert {doc : Fields} {id : Identifier} (h : s.insert name (.obj doc) = (.ok (), s'))
    (hid : documentId? doc = some id) : s'.get? name id = some doc := by
  obtain ⟨c, hc, rfl⟩ := insert_eq_ok h
  rw [get?, collection_put, if_pos rfl]
  exact Collection.get?_of_insert hc hid

theorem get?_of_update {id : Identifier} {patch doc : Fields}
    (h : s.update name id patch = (some doc, s')) : s'.get? name id = some doc := by
  obtain ⟨c, hc, rfl⟩ := update_eq_some h
  rw [get?, collection_put, if_pos rfl]
  exact Collection.get?_of_update hc

theorem knows_of_insert {fields : Fields} {id : Identifier}
    (h : s.insert name (.obj fields) = (.ok (), s')) (hid : documentId? fields = some id)
    {other : String} {k : Identifier} (hk : (s'.collection other).knows k) :
    (s.collection other).knows k ∨ k = id := by
  obtain ⟨c, hc, rfl⟩ := insert_eq_ok h
  obtain ⟨fields', id', hfields, hid', -, rfl⟩ := Collection.insert_eq_ok hc
  cases hfields
  cases hid.symm.trans hid'
  rw [collection_put] at hk
  split at hk
  · rename_i ho
    rw [Collection.knows_insert] at hk
    rcases Bool.or_eq_true_iff.mp hk with hk | hk
    · exact .inr (beq_iff_eq.mp hk).symm
    · exact .inl (ho ▸ hk)
  · exact .inl hk

theorem knows_of_update {id : Identifier} {patch doc : Fields}
    (h : s.update name id patch = (some doc, s')) {other : String} {k : Identifier}
    (hk : (s'.collection other).knows k) : (s.collection other).knows k := by
  obtain ⟨c, hc, rfl⟩ := update_eq_some h
  rw [collection_put] at hk
  split at hk
  · rename_i ho
    obtain ⟨_, _, -, -, -, rfl⟩ := Collection.update_eq_some hc
    exact ho ▸ hk
  · exact hk

theorem knows_of_delete {id : Identifier} {doc : Fields}
    (h : s.delete name id = (some doc, s')) {other : String} {k : Identifier}
    (hk : (s'.collection other).knows k) : (s.collection other).knows k := by
  obtain ⟨c, hc, rfl⟩ := delete_eq_some h
  rw [collection_put] at hk
  split at hk
  · rename_i ho
    exact ho ▸ Collection.knows_of_delete hc hk
  · exact hk

end Store

end Clientele
