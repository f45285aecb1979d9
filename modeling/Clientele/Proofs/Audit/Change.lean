import Clientele.Audit.Change
import Clientele.Proofs.Json.Fields

/-!
What change sets tell. Of a new document they tell each public field with its value. Of a patch they
tell each public field with its value before and after, except that lists of objects are told item
by item and key by key.
-/
set_option autoImplicit false

namespace Clientele.Audit

variable {field : String} {value : Json}

theorem mapM_fields?_eq_some {vs : List Json} {items : List Fields} :
    vs.mapM Json.fields? = some items ↔ vs = items.map .obj := by
  induction vs generalizing items with
  | nil => cases items <;> simp
  | cons v vs ih =>
    rw [List.mapM_cons, Option.bind_eq_bind, Option.bind_eq_some_iff]
    constructor
    · rintro ⟨item, hitem, h⟩
      obtain ⟨rest, hrest, heq⟩ := Option.bind_eq_some_iff.mp h
      cases heq
      cases v with
      | obj fs =>
        cases hitem
        rw [List.map_cons, ih.mp hrest]
      | _ => cases hitem
    · intro h
      cases items with
      | nil => cases h
      | cons item items =>
        obtain ⟨rfl, hrest⟩ := List.cons.inj h
        exact ⟨item, rfl, by rw [ih.mpr hrest]; rfl⟩

theorem recordList?_eq_some {items : List Fields} :
    recordList? value = some items ↔ items ≠ [] ∧ value = .arr (items.map .obj) := by
  cases value with
  | arr vs =>
    cases vs with
    | nil => cases items <;> simp [recordList?]
    | cons v vs =>
      rw [recordList?, mapM_fields?_eq_some, Json.arr.injEq]
      · constructor
        · intro h
          exact ⟨fun hnil => by simp [hnil] at h, h⟩
        · exact And.right
      · simp
  | _ => simp [recordList?]

def itemBefore (before : Option Json) (index : Nat) (key : String) : Option String :=
  match (before.bind Json.items?).bind (·[index]?) with
  | none => some ""
  | some item => (item.get? key).bind render

/-- What there is to tell about a field, from its values before and after. -/
inductive TellsField (field : String) (before : Option Json) : Json → List Change → Prop
  | whole {after : Json} (h : ∀ items, items ≠ [] → after ≠ .arr (items.map .obj)) :
      TellsField field before after [⟨field, before.bind render, render after⟩]
  | items {items : List Fields} (h : items ≠ []) :
      TellsField field before (.arr (items.map .obj))
        (items.zipIdx.flatMap fun (item, index) => item.map fun f =>
          ⟨s!"{field}.{index}.{f.1}", itemBefore before index f.1, render f.2⟩)

theorem itemChanges_eq (field : String) (before : Option Json) (index : Nat) (item : Fields) :
    itemChanges field index ((before.bind Json.items?).getD [])[index]? item =
      item.map fun f => ⟨s!"{field}.{index}.{f.1}", itemBefore before index f.1, render f.2⟩ := by
  unfold itemChanges itemBefore
  cases before.bind Json.items? with
  | none => rfl
  | some prior => rfl

theorem tellsField_fieldChanges (old : Json) (field : String) (value : Json) :
    TellsField field (old.get? field) value (fieldChanges old field value) := by
  rw [fieldChanges]
  cases hitems : recordList? value with
  | none =>
    refine .whole fun items hne heq => ?_
    cases hitems.symm.trans (recordList?_eq_some.mpr ⟨hne, heq⟩)
  | some items =>
    obtain ⟨hne, rfl⟩ := recordList?_eq_some.mp hitems
    simp only [itemChanges_eq, ← List.flatMap_def]
    exact .items hne

theorem itemName_eq (field : String) (index : Nat) (key : String) :
    s!"{field}.{index}.{key}" = field ++ "." ++ s!"{index}.{key}" := by
  simp only [String.append_assoc]
  rfl

/-- Whether a change is about a field: it has its name, or the name of a key of one of its items. -/
def Change.IsAbout (field : String) (c : Change) : Prop :=
  c.field = field ∨ ∃ (index : Nat) (key : String), c.field = s!"{field}.{index}.{key}"

theorem TellsField.isAbout {before : Option Json} {changes : List Change}
    (h : TellsField field before value changes) : ∀ c ∈ changes, c.IsAbout field := by
  cases h with
  | whole _ =>
    intro c hc
    rw [List.mem_singleton.mp hc]
    exact .inl rfl
  | items _ =>
    intro c hc
    obtain ⟨⟨item, index⟩, -, hc⟩ := List.mem_flatMap.mp hc
    obtain ⟨f, -, rfl⟩ := List.mem_map.mp hc
    exact .inr ⟨index, f.1, rfl⟩

theorem fieldChanges_of_recordList?_eq_none (h : recordList? value = none) (old : Json)
    (field : String) :
    fieldChanges old field value = [⟨field, (old.get? field).bind render, render value⟩] := by
  rw [fieldChanges, h]

theorem eq_of_mem_fieldChanges {old : Json} {c : Change} (hc : c ∈ fieldChanges old field value)
    (hdot : '.' ∉ c.field.toList) :
    recordList? value = none ∧ c = ⟨field, (old.get? field).bind render, render value⟩ := by
  cases h : recordList? value with
  | none =>
    rw [fieldChanges_of_recordList?_eq_none h] at hc
    exact ⟨rfl, List.mem_singleton.mp hc⟩
  | some items =>
    rw [fieldChanges, h] at hc
    obtain ⟨changes, hchanges, hc⟩ := List.mem_flatten.mp hc
    obtain ⟨⟨item, index⟩, -, rfl⟩ := List.mem_map.mp hchanges
    obtain ⟨f, -, rfl⟩ := List.mem_map.mp hc
    exact absurd (by rw [itemName_eq]; simp) hdot

theorem changesWithDefaults_eq (ps : PublicFields) (defaults values : Fields) :
    changesWithDefaults ps defaults values =
      changesOnCreate ps (implied defaults values ++ values) := by
  simp only [changesWithDefaults, changesOnCreate, List.filter_append, List.map_append]

theorem mem_changesOnCreate {ps : PublicFields} {values : Fields} {c : Change} :
    c ∈ changesOnCreate ps values ↔
      ∃ f ∈ values, isPublic ps f.1 = true ∧ c = ⟨f.1, none, render f.2⟩ := by
  simp only [changesOnCreate, List.mem_map, List.mem_filter, and_assoc, eq_comm]

theorem mem_changesOnUpdate {ps : PublicFields} {old : Json} {patch : Fields} {c : Change} :
    c ∈ changesOnUpdate ps (some old) patch ↔
      ∃ f ∈ patch, isPublic ps f.1 = true ∧ c ∈ fieldChanges old f.1 f.2 := by
  simp only [changesOnUpdate, List.mem_flatMap, List.mem_filter, and_assoc]

theorem exists_blocks_changesOnUpdate (ps : PublicFields) (old : Json) (patch : Fields) :
    ∃ blocks : List (String × List Change),
      blocks.map (·.1) = patch.keys.filter (isPublic ps) ∧
      changesOnUpdate ps (some old) patch = blocks.flatMap (·.2) ∧
      ∀ block ∈ blocks, ∃ value, (block.1, value) ∈ patch ∧
        TellsField block.1 (old.get? block.1) value block.2 := by
  refine ⟨(patch.filter fun f => isPublic ps f.1).map fun f => (f.1, fieldChanges old f.1 f.2),
    ?_, ?_, ?_⟩
  · rw [List.map_map, ← Fields.keys_filter]
    rfl
  · rw [List.flatMap_map]
    rfl
  · intro block hblock
    obtain ⟨f, hf, rfl⟩ := List.mem_map.mp hblock
    exact ⟨f.2, (List.mem_filter.mp hf).1, tellsField_fieldChanges old f.1 f.2⟩

end Clientele.Audit
