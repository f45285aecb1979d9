import Clientele.Proofs.Audit.Change
import Clientele.Proofs.Crm.Gateway

/-!
What is written for a new entity or for a patch, and that the change set made from the same payload
tells it. Stamps are written over the document behind the back of the change set.
-/
set_option autoImplicit false

namespace Clientele.Crm

open Audit (Change isPublic render TellsField)

def creationStamps : List String := ["createdById", "createdAt", "updatedAt"]

def updateStamps : List String := ["updatedById", "updatedAt"]

/-- What a new document holds, and what changes tell of it. -/
structure TellsCreation (e : Entity) (values node : Fields) (changes : List Change) : Prop where
  fields : (node.filter fun f => f.1 ∉ Path.primaryKey :: creationStamps) =
    (Audit.implied e.defaults values ++ values).filter fun f => f.1 ∉ creationStamps
  changes : (changes.filter fun c => c.field ∉ creationStamps) =
    (node.filter fun f => f.1 ∉ Path.primaryKey :: creationStamps ∧
      isPublic e.publicFields f.1).map fun f => ⟨f.1, none, render f.2⟩

theorem nodup_defaults_of_mem_catalog {e : Entity} (he : e ∈ catalog) : e.defaults.keys.Nodup := by
  have hall : catalog.all fun e => decide e.defaults.keys.Nodup := by decide
  exact of_decide_eq_true (List.all_eq_true.mp hall e he)

theorem overlay_newDocument {e : Entity} {values : Fields} (he : e ∈ catalog)
    (hvalues : values.keys.Nodup) (hkey : values.has Path.primaryKey = false) (id : Json) :
    (Fields.overlay [(Path.primaryKey, id)] (Audit.implied e.defaults values)).overlay values =
      (Path.primaryKey, id) :: (Audit.implied e.defaults values ++ values) := by
  have himplied : (Audit.implied e.defaults values).keys =
      e.defaults.keys.filter fun key => !values.has key :=
    Fields.keys_filter (fun key => !values.has key) e.defaults
  have hdefaults : ∀ key ∈ (Audit.implied e.defaults values).keys,
      key ≠ Path.primaryKey ∧ key ∉ values.keys := by
    intro key hmem
    rw [himplied, List.mem_filter] at hmem
    obtain ⟨f, hf, rfl⟩ := List.mem_map.mp hmem.1
    exact ⟨defaults_ne_of_mem_catalog he f hf, fun h => by simp [Fields.has_iff.mpr h] at hmem⟩
  have hnamed : Fields.overlay [(Path.primaryKey, id)] (Audit.implied e.defaults values) =
      (Path.primaryKey, id) :: Audit.implied e.defaults values := by
    refine Fields.overlay_eq_append ?_ fun key hmem => ?_
    · rw [himplied]
      exact (nodup_defaults_of_mem_catalog he).filter _
    · simpa [Fields.keys] using (hdefaults key hmem).1
  rw [hnamed]
  refine Fields.overlay_eq_append hvalues fun key hmem hnamed => ?_
  rcases List.mem_cons.mp hnamed with rfl | himplied
  · rw [Fields.has_iff.mpr hmem] at hkey
    cases hkey
  · exact (hdefaults key himplied).2 hmem

theorem tellsCreation_newDocument {e : Entity} {values : Fields} (he : e ∈ catalog)
    (hvalues : values.keys.Nodup) (hkey : values.has Path.primaryKey = false)
    (id userId : Identifier) (time : Time.Instant) :
    TellsCreation e values (newDocument e id userId time values)
      (Audit.changesWithDefaults e.publicFields e.defaults values) := by
  have hne : ∀ f ∈ Audit.implied e.defaults values ++ values, f.1 ≠ Path.primaryKey := by
    intro f hf heq
    rcases List.mem_append.mp hf with hf | hf
    · exact defaults_ne_of_mem_catalog he f (List.mem_filter.mp hf).1 heq
    · rw [Fields.has_iff.mpr (heq ▸ Fields.mem_keys hf)] at hkey
      cases hkey
  -- Where the stamps stand depends on the payload; no matter, once they are not picked.
  have hnode (p : String → Bool) (hcreatedBy : p "createdById" = false)
      (hcreated : p "createdAt" = false) (hupdated : p "updatedAt" = false)
      (hprimary : p Path.primaryKey = false) :
      ((newDocument e id userId time values).filter fun f => p f.1) =
        (Audit.implied e.defaults values ++ values).filter fun f => p f.1 := by
    rw [newDocument, Fields.filter_set_of_not hupdated, Fields.filter_set_of_not hcreated,
      Fields.filter_set_of_not hcreatedBy, overlay_newDocument he hvalues hkey,
      List.filter_cons_of_neg (by simpa using hprimary)]
  constructor
  · rw [hnode (fun key => key ∉ Path.primaryKey :: creationStamps) (by decide) (by decide)
      (by decide) (by decide)]
    exact List.filter_congr fun f hf => by simp [hne f hf]
  · rw [hnode (fun key => key ∉ Path.primaryKey :: creationStamps ∧ isPublic e.publicFields key)
      (by simp [creationStamps]) (by simp [creationStamps]) (by simp [creationStamps]) (by simp),
      Audit.changesWithDefaults_eq, Audit.changesOnCreate, List.filter_map, List.filter_filter]
    refine congrArg _ (List.filter_congr fun f hf => ?_)
    simp [hne f hf]

def pricedNames (patch : Fields) : List String :=
  (if patch.has "items" then ["subTotal", "total"] else if patch.has "tax" then ["total"]
    else []).filter (· ∉ patch.keys)

/-- The names that a patch comes to, in their order: those that are not blank, and those of prices.
-/
def effectiveNames (e : Entity) (patch : Fields) : List String :=
  (withoutBlanks patch).keys ++ if e.pricing then pricedNames (withoutBlanks patch) else []

/-- What a patched document holds, and what changes tell of it. -/
def TellsUpdate (e : Entity) (patch previous node : Fields) (changes : List Change) : Prop :=
  ∃ blocks : List (String × List Change),
    blocks.map (·.1) = (effectiveNames e patch).filter (isPublic e.publicFields) ∧
    changes = blocks.flatMap (·.2) ∧
    ∀ block ∈ blocks, block.1 ∉ updateStamps → ∃ after, node.get? block.1 = some after ∧
      TellsField block.1 (previous.get? block.1) after block.2

theorem keys_withItems {patch : Fields} (h : patch.has "items") (subtotal : Float) :
    (withItems patch subtotal).keys =
      patch.keys ++ if "subTotal" ∈ patch.keys then [] else ["subTotal"] := by
  have hset (fs : Fields) (hkeys : fs.keys = patch.keys) (v : Json) :
      (fs.set "subTotal" v).keys =
        patch.keys ++ if "subTotal" ∈ patch.keys then [] else ["subTotal"] := by
    rw [Fields.keys_set, hkeys]
    split <;> simp
  unfold withItems
  split
  · rename_i hnone
    rw [Fields.has, hnone] at h
    cases h
  · exact hset _ (by rw [Fields.keys_set, if_pos (Fields.has_iff.mp h)]) _
  · exact hset _ rfl _

theorem keys_priced (stored : Option Json) (patch : Fields) :
    (priced stored patch).keys = patch.keys ++ pricedNames patch := by
  cases hitems : patch.has "items" with
  | true =>
    simp only [priced, pricedNames, hitems, Bool.true_or, if_true, Fields.keys_set,
      keys_withItems hitems]
    by_cases hsub : "subTotal" ∈ patch.keys <;> by_cases htotal : "total" ∈ patch.keys <;>
      simp [hsub, htotal]
  | false =>
    have hnone : patch.get? "items" = none := by simpa [Fields.has] using hitems
    simp only [priced, pricedNames, hitems, Bool.false_or, Bool.false_eq_true, if_false]
    split
    · rw [withItems, hnone, Fields.keys_set]
      by_cases htotal : "total" ∈ patch.keys <;> simp [htotal]
    · simp

theorem keys_effectivePatch (e : Entity) (previous patch : Fields) :
    (effectivePatch e previous patch).keys = effectiveNames e patch := by
  unfold effectivePatch effectiveNames
  split
  · exact keys_priced _ _
  · exact (List.append_nil _).symm

theorem pricedNames_sublist (patch : Fields) :
    (pricedNames patch).Sublist ["subTotal", "total"] := by
  refine List.filter_sublist.trans ?_
  split
  · decide
  · split <;> decide

theorem nodup_effectiveNames (e : Entity) {patch : Fields} (h : patch.keys.Nodup) :
    (effectiveNames e patch).Nodup := by
  have hkept : (withoutBlanks patch).keys.Nodup := h.sublist (List.filter_sublist.map _)
  unfold effectiveNames
  refine List.nodup_append.mpr ⟨hkept, ?_, ?_⟩
  · split
    · exact List.Pairwise.sublist (pricedNames_sublist _) (by decide)
    · exact List.Pairwise.nil
  · intro key hkey other hother heq
    split at hother
    · have hnew := (List.mem_filter.mp hother).2
      simp [← heq, hkey] at hnew
    · cases hother

theorem primaryKey_not_mem_effectiveNames (e : Entity) {patch : Fields}
    (h : patch.has Path.primaryKey = false) : Path.primaryKey ∉ effectiveNames e patch := by
  intro hmem
  rcases List.mem_append.mp hmem with hmem | hmem
  · have hthere := Fields.has_iff.mpr ((List.filter_sublist.map _).mem hmem)
    rw [h] at hthere
    cases hthere
  · split at hmem
    · exact absurd ((pricedNames_sublist _).mem hmem) (by decide)
    · cases hmem

theorem get?_patched (e : Entity) {patch : Fields} (hpatch : patch.keys.Nodup) (previous : Fields)
    (userId : Identifier) (time : Time.Instant) {key : String} (hkey : key ≠ Path.primaryKey) :
    (Store.Collection.patched previous
        (stamped (effectivePatch e previous patch) userId time)).get? key =
      ((stamped (effectivePatch e previous patch) userId time).get? key).or (previous.get? key) := by
  have hnodup := nodup_effectiveNames e hpatch
  rw [← keys_effectivePatch e previous] at hnodup
  have hwritten : Fields.keys ((stamped (effectivePatch e previous patch) userId time).filter
      (·.1 ≠ Path.primaryKey)) |>.Nodup :=
    (Fields.nodup_keys_set (Fields.nodup_keys_set hnodup _ _) _ _).sublist
      (List.filter_sublist.map _)
  rw [Store.Collection.patched, Fields.get?_overlay hwritten,
    Fields.get?_filter (fun key => key ≠ Path.primaryKey), if_pos (by simpa using hkey)]

theorem get?_stamped_of_not_mem {key : String} (h : key ∉ updateStamps) (patch : Fields)
    (userId : Identifier) (time : Time.Instant) :
    (stamped patch userId time).get? key = patch.get? key := by
  simp only [updateStamps, List.mem_cons, not_or] at h
  simp only [stamped, Fields.get?_set, Ne.symm h.1, Ne.symm h.2.1, if_false]

theorem get?_patched_of_not_mem {e : Entity} {patch : Fields} {key : String}
    (hname : key ∉ effectiveNames e patch) (hstamp : key ∉ updateStamps) (previous : Fields)
    (userId : Identifier) (time : Time.Instant) :
    (Store.Collection.patched previous
        (stamped (effectivePatch e previous patch) userId time)).get? key = previous.get? key := by
  refine Fields.get?_overlay_of_forall_ne (fun f hf heq => ?_) previous
  have hthere := Fields.has_iff.mpr (Fields.mem_keys (List.mem_filter.mp hf).1)
  rw [heq, Fields.has, get?_stamped_of_not_mem hstamp, ← Fields.has, Fields.has_iff,
    keys_effectivePatch] at hthere
  exact hname hthere

theorem get?_patched_of_mem {e : Entity} {patch : Fields} (hpatch : patch.keys.Nodup)
    (hkey : patch.has Path.primaryKey = false) {previous : Fields} {f : String × Json}
    (hf : f ∈ effectivePatch e previous patch) (hstamp : f.1 ∉ updateStamps)
    (userId : Identifier) (time : Time.Instant) :
    (Store.Collection.patched previous
        (stamped (effectivePatch e previous patch) userId time)).get? f.1 = some f.2 := by
  have hname := Fields.mem_keys hf
  rw [keys_effectivePatch] at hname
  have hprimary : f.1 ≠ Path.primaryKey :=
    fun heq => primaryKey_not_mem_effectiveNames e hkey (heq ▸ hname)
  have hnodup := nodup_effectiveNames e hpatch
  rw [← keys_effectivePatch e previous] at hnodup
  rw [get?_patched e hpatch previous userId time hprimary, get?_stamped_of_not_mem hstamp,
    Fields.get?_of_mem hnodup hf, Option.some_or]

theorem tellsUpdate_patched (e : Entity) {patch : Fields} (hpatch : patch.keys.Nodup)
    (hkey : patch.has Path.primaryKey = false) (previous : Fields) (userId : Identifier)
    (time : Time.Instant) :
    TellsUpdate e patch previous
      (Store.Collection.patched previous (stamped (effectivePatch e previous patch) userId time))
      (Audit.changesOnUpdate e.publicFields (some (.obj previous))
        (effectivePatch e previous patch)) := by
  obtain ⟨blocks, hnames, hchanges, htells⟩ :=
    Audit.exists_blocks_changesOnUpdate e.publicFields (.obj previous)
      (effectivePatch e previous patch)
  rw [keys_effectivePatch] at hnames
  refine ⟨blocks, hnames, hchanges, fun block hblock hstamp => ?_⟩
  obtain ⟨after, hmem, htold⟩ := htells block hblock
  exact ⟨after, get?_patched_of_mem hpatch hkey hmem hstamp userId time, htold⟩

end Clientele.Crm
