import Clientele.Proofs.Json.Depth
import Clientele.Proofs.Json.Fields
import Clientele.Proofs.Json.Indented
import Clientele.Proofs.Json.Number

/-!
Values that a document can hold so that the list of all documents is read back from its text: no
name stands twice in them, and there is room for the document and the list around them. Whatever is
read from the text of a list of documents is of this kind.
-/
set_option autoImplicit false

namespace Clientele

namespace Json

theorem map_eq_self_iff {α : Type} {f : α → α} {xs : List α} :
    xs.map f = xs ↔ ∀ x ∈ xs, f x = x := by
  simpa using @List.map_inj_left α α xs f id

theorem collapseItems_eq_map (xs : List Json) : collapseItems xs = xs.map collapse := by
  induction xs with
  | nil => rfl
  | cons x xs ih => rw [collapseItems, ih, List.map_cons]

theorem collapseFields_eq_map (fs : Fields) :
    collapseFields fs = fs.map fun f => (f.1, f.2.collapse) := by
  induction fs with
  | nil => rfl
  | cons f fs ih => rw [collapseFields, ih, List.map_cons]

theorem collapse_arr_eq_self {xs : List Json} :
    (arr xs).collapse = arr xs ↔ ∀ x ∈ xs, x.collapse = x := by
  rw [collapse, collapseItems_eq_map, arr.injEq]
  exact map_eq_self_iff

theorem nodup_keys_overlay_nil (fs : Fields) : (Fields.overlay [] fs).keys.Nodup :=
  @Fields.nodup_keys_overlay [] List.Pairwise.nil fs

theorem collapse_obj_eq_self {fs : Fields} :
    (obj fs).collapse = obj fs ↔ fs.keys.Nodup ∧ ∀ f ∈ fs, f.2.collapse = f.2 := by
  have hkeys : Fields.keys (collapseFields fs) = fs.keys := by
    simp [collapseFields_eq_map, Fields.keys]
  have hoverlay (h : fs.keys.Nodup) : Fields.overlay [] (collapseFields fs) = collapseFields fs :=
    Fields.overlay_eq_append (hkeys ▸ h) fun _ _ hnil => absurd hnil List.not_mem_nil
  have hvalues : collapseFields fs = fs ↔ ∀ f ∈ fs, f.2.collapse = f.2 := by
    rw [collapseFields_eq_map, map_eq_self_iff]
    simp [Prod.ext_iff]
  rw [collapse, obj.injEq]
  constructor
  · intro h
    have hnodup : fs.keys.Nodup := h ▸ nodup_keys_overlay_nil _
    exact ⟨hnodup, hvalues.mp ((hoverlay hnodup).symm.trans h)⟩
  · rintro ⟨hnodup, hall⟩
    rw [hoverlay hnodup, hvalues.mpr hall]

theorem collapse_collapse (v : Json) : v.collapse.collapse = v.collapse := by
  induction v using induct with
  | arr xs ih =>
    rw [collapse, collapseItems_eq_map, collapse_arr_eq_self]
    simpa using ih
  | obj fs ih =>
    rw [collapse, collapse_obj_eq_self]
    refine ⟨nodup_keys_overlay_nil _,
      Fields.forall_overlay (P := fun v => v.collapse = v) (by simp) ?_⟩
    rw [collapseFields_eq_map, List.forall_mem_map]
    exact ih
  | _ => rfl

theorem depth_collapse_le (v : Json) : v.collapse.depth ≤ v.depth := by
  induction v using induct with
  | arr xs ih =>
    have hxs := depthOfItems_le.mp (Nat.le_refl (depthOfItems xs))
    rw [collapse, collapseItems_eq_map, depth, depth, Nat.add_le_add_iff_right, depthOfItems_le]
    simpa using fun x hx => Nat.le_trans (ih x hx) (hxs x hx)
  | obj fs ih =>
    have hfs := depthOfFields_le.mp (Nat.le_refl (depthOfFields fs))
    rw [collapse, depth, depth, Nat.add_le_add_iff_right, depthOfFields_le]
    refine Fields.forall_overlay (P := fun v => v.depth ≤ _) (by simp) ?_
    rw [collapseFields_eq_map, List.forall_mem_map]
    exact fun f hf => Nat.le_trans (ih f hf) (hfs f hf)
  | _ => exact Nat.le_refl _

theorem collapse_of_parse? {s : String} {v : Json} (h : parse? s = some v) : v.collapse = v := by
  obtain ⟨raw, -, rfl⟩ := Option.map_eq_some_iff.mp h
  exact collapse_collapse raw

theorem depth_of_parse? {s : String} {v : Json} (h : parse? s = some v) : v.depth ≤ maxDepth := by
  obtain ⟨raw, hraw, rfl⟩ := Option.map_eq_some_iff.mp h
  exact Nat.le_trans (depth_collapse_le raw) (depth_of_parseRaw? hraw)

/-- A value that can be read back from inside a document in a list. -/
structure IsStorable (v : Json) : Prop where
  collapse_eq : v.collapse = v
  depth_le : v.depth + 2 ≤ maxDepth

def isScalar : Json → Bool
  | .arr _ | .obj _ => false
  | _ => true

theorem depth_of_isScalar {v : Json} (h : v.isScalar) : v.depth = 0 := by
  cases v with
  | arr xs | obj fs => cases h
  | _ => rfl

theorem collapse_of_isScalar {v : Json} (h : v.isScalar) : v.collapse = v := by
  cases v with
  | arr xs | obj fs => cases h
  | _ => rfl

theorem isStorable_of_isScalar {v : Json} (h : v.isScalar) : v.IsStorable :=
  ⟨collapse_of_isScalar h, by rw [depth_of_isScalar h]; decide⟩

theorem isStorable_map {xs : List Json} {g : Json → Json} (h : (arr xs).IsStorable)
    (hg : ∀ x ∈ xs, x.collapse = x → (g x).collapse = g x ∧ (g x).depth ≤ x.depth) :
    (arr (xs.map g)).IsStorable where
  collapse_eq := by
    have hxs := collapse_arr_eq_self.mp h.collapse_eq
    rw [collapse_arr_eq_self, List.forall_mem_map]
    exact fun x hx => (hg x hx (hxs x hx)).1
  depth_le := by
    have hxs := collapse_arr_eq_self.mp h.collapse_eq
    have hdepth := depthOfItems_le.mp (Nat.le_refl (depthOfItems xs))
    have hmap : depthOfItems (xs.map g) ≤ depthOfItems xs := by
      rw [depthOfItems_le, List.forall_mem_map]
      exact fun x hx => Nat.le_trans (hg x hx (hxs x hx)).2 (hdepth x hx)
    exact Nat.le_trans (Nat.add_le_add_right (Nat.add_le_add_right hmap 1) 2) h.depth_le

end Json

namespace Fields

open Json (IsStorable maxDepth)

structure IsStorable (doc : Fields) : Prop where
  distinct : doc.keys.Nodup
  values : ∀ f ∈ doc, f.2.IsStorable

variable {doc patch : Fields}

theorem isStorable_iff :
    doc.IsStorable ↔ (Json.obj doc).collapse = .obj doc ∧ (Json.obj doc).depth + 1 ≤ maxDepth := by
  have hdepth : (Json.obj doc).depth + 1 ≤ maxDepth ↔ ∀ f ∈ doc, f.2.depth + 2 ≤ maxDepth := by
    rw [Json.depth, show maxDepth = 125 + 2 from rfl, Nat.add_assoc, Nat.add_le_add_iff_right,
      Json.depthOfFields_le]
    simp only [Nat.add_le_add_iff_right]
  rw [Json.collapse_obj_eq_self, hdepth]
  constructor
  · rintro ⟨hdistinct, hvalues⟩
    exact ⟨⟨hdistinct, fun f hf => (hvalues f hf).collapse_eq⟩, fun f hf => (hvalues f hf).depth_le⟩
  · rintro ⟨⟨hdistinct, hcollapse⟩, hroom⟩
    exact ⟨hdistinct, fun f hf => ⟨hcollapse f hf, hroom f hf⟩⟩

theorem IsStorable.set (h : doc.IsStorable) (key : String) {v : Json} (hv : v.IsStorable) :
    (doc.set key v).IsStorable :=
  ⟨nodup_keys_set h.distinct key v, forall_set h.values key hv⟩

theorem IsStorable.overlay (h : doc.IsStorable) (hpatch : ∀ f ∈ patch, f.2.IsStorable) :
    (doc.overlay patch).IsStorable :=
  ⟨nodup_keys_overlay h.distinct patch, forall_overlay h.values hpatch⟩

end Fields

theorem Json.depth_documents_le {docs : List Fields} :
    (Json.arr (docs.map .obj)).depth ≤ maxDepth ↔ ∀ doc ∈ docs, (Json.obj doc).depth < maxDepth := by
  rw [depth, show maxDepth = 126 + 1 from rfl, Nat.add_le_add_iff_right, depthOfItems_le,
    List.forall_mem_map]
  simp only [Nat.lt_add_one_iff]

theorem Json.allNumbers_documents {docs : List Fields} {P : Number → Prop}
    (h : ∀ doc ∈ docs, (Json.obj doc).AllNumbers P) : (Json.arr (docs.map .obj)).AllNumbers P :=
  allItemNumbers_iff.mpr (List.forall_mem_map.mpr h)

/-- Documents are read back from the text of their list. -/
theorem Json.parse?_documents {docs : List Fields} (hdocs : ∀ doc ∈ docs, doc.IsStorable)
    (hnumbers : ∀ doc ∈ docs, (Json.obj doc).AllNumbers NumberReads) :
    parse? (Json.arr (docs.map .obj)).indented = some (.arr (docs.map .obj)) := by
  have hdepth : (Json.arr (docs.map .obj)).depth ≤ maxDepth :=
    depth_documents_le.mpr fun doc hdoc => (Fields.isStorable_iff.mp (hdocs doc hdoc)).2
  rw [parse?, parseRaw?_indented hdepth (allNumbers_documents hnumbers), Option.map_some,
    collapse_arr_eq_self.mpr]
  rw [List.forall_mem_map]
  exact fun doc hdoc => (Fields.isStorable_iff.mp (hdocs doc hdoc)).1

/-- One document that leaves no room for the list makes the whole text unreadable. -/
theorem Json.parse?_documents_eq_none {docs : List Fields} {doc : Fields} (hdoc : doc ∈ docs)
    (hdeep : maxDepth ≤ (Json.obj doc).depth)
    (hnumbers : ∀ doc ∈ docs, (Json.obj doc).AllNumbers NumberReads) :
    parse? (Json.arr (docs.map .obj)).indented = none := by
  have hdepth : maxDepth < (Json.arr (docs.map .obj)).depth :=
    Nat.lt_of_not_le fun hle => Nat.not_lt.mpr hdeep (depth_documents_le.mp hle doc hdoc)
  rw [parse?, parseRaw?_indented_eq (allNumbers_documents hnumbers),
    ofTokens?_tokensOf_eq_none hdepth, Option.map_none]

theorem Json.isStorable_of_parse? {s : String} {items : List Json}
    (h : parse? s = some (.arr items)) {doc : Fields} (hdoc : .obj doc ∈ items) :
    doc.IsStorable := by
  have hdepth := depth_of_parse? h
  rw [depth, show maxDepth = 126 + 1 from rfl, Nat.add_le_add_iff_right, depthOfItems_le] at hdepth
  exact Fields.isStorable_iff.mpr
    ⟨collapse_arr_eq_self.mp (collapse_of_parse? h) _ hdoc, Nat.succ_le_succ (hdepth _ hdoc)⟩

end Clientele
