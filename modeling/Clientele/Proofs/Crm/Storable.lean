import Clientele.Proofs.Audit.Journal
import Clientele.Proofs.Crm.Gateway
import Clientele.Proofs.Json.Storable

/-!
What is written for payloads that can be stored can be stored: new documents, patched ones, and the
records about them.
-/
set_option autoImplicit false

namespace Clientele

def Fields.HoldStorable (fs : Fields) : Prop := ∀ f ∈ fs, f.2.IsStorable

namespace Fields.HoldStorable

variable {fs patch : Fields}

theorem set (h : fs.HoldStorable) (key : String) {v : Json} (hv : v.IsStorable) :
    (fs.set key v).HoldStorable := forall_set h key hv

theorem filter (h : fs.HoldStorable) (p : String × Json → Bool) :
    Fields.HoldStorable (fs.filter p) := fun f hf => h f (List.mem_of_mem_filter hf)

theorem of_get? (h : fs.HoldStorable) {key : String} {v : Json} (hv : fs.get? key = some v) :
    v.IsStorable := by
  induction fs with
  | nil => cases hv
  | cons f fs ih =>
    obtain ⟨k, w⟩ := f
    obtain ⟨hw, hfs⟩ := List.forall_mem_cons.mp h
    rw [get?] at hv
    split at hv
    · cases hv
      exact hw
    · exact ih hfs hv

end Fields.HoldStorable

theorem Json.isStorable_str (s : String) : (Json.str s).IsStorable := isStorable_of_isScalar rfl

theorem Identifier.isStorable_toJson (id : Identifier) : id.toJson.IsStorable :=
  Json.isStorable_str _

namespace Audit

theorem Change.collapse_toJson (c : Change) : c.toJson.collapse = c.toJson := by
  obtain ⟨field, before, after⟩ := c
  cases before <;> cases after <;> rfl

theorem isStorable_changes (cs : List Change) :
    (Json.arr (cs.map Change.toJson)).IsStorable where
  collapse_eq := by
    rw [Json.collapse_arr_eq_self, List.forall_mem_map]
    exact fun c _ => c.collapse_toJson
  depth_le := by
    have hdepth := Entry.depthOfItems_changes cs
    rw [Json.depth]
    exact Nat.le_trans (Nat.add_le_add_right (Nat.add_le_add_right hdepth 1) 2) (by decide)

theorem Record.isStorable_toDocument (r : Record) : r.toDocument.IsStorable := by
  have hfields : r.toDocument =
      [("updatedAt", .str r.updatedAt.millis), ("action", .str r.action.name),
        ("targetEntity", .str r.targetEntity), ("targetId", r.targetId.toJson),
        ("changes", .arr (r.changes.map Change.toJson)), ("userId", r.userId.toJson),
        ("createdAt", .str r.createdAt.millis), (Path.primaryKey, r.id.toJson)] := rfl
  rw [hfields]
  refine ⟨?_, ?_⟩
  · have hkeys : (["updatedAt", "action", "targetEntity", "targetId", "changes", "userId",
        "createdAt", Path.primaryKey] : List String).Nodup := by decide
    exact hkeys
  · simp [Json.isStorable_str, Identifier.isStorable_toJson, isStorable_changes]

end Audit

namespace Crm

open Fields (HoldStorable)

theorem isScalar_amountJson (x : Float) : (amountJson x).isScalar := by
  unfold amountJson
  split
  · rfl
  · split
    · split <;> rfl
    · rfl

theorem isStorable_amountJson (x : Float) : (amountJson x).IsStorable :=
  Json.isStorable_of_isScalar (isScalar_amountJson x)

theorem isStorable_priceItems {items : List Json} (h : (Json.arr items).IsStorable) :
    (Json.arr (priceItems items)).IsStorable := by
  refine Json.isStorable_map h fun item _ hcollapse => ?_
  cases item with
  | obj fs =>
    have hamount := isScalar_amountJson (itemTotal fs)
    obtain ⟨hkeys, hvalues⟩ := Json.collapse_obj_eq_self.mp hcollapse
    have hdepth := Json.depthOfFields_le.mp (Nat.le_refl (Json.depthOfFields fs))
    constructor
    · exact Json.collapse_obj_eq_self.mpr ⟨Fields.nodup_keys_set hkeys _ _,
        Fields.forall_set (P := fun v => v.collapse = v) hvalues _
          (Json.collapse_of_isScalar hamount)⟩
    · refine Nat.add_le_add_right (Json.depthOfFields_le.mpr ?_) 1
      refine Fields.forall_set (P := fun v => v.depth ≤ _) hdepth _ ?_
      rw [Json.depth_of_isScalar hamount]
      exact Nat.zero_le _
  | _ => exact ⟨hcollapse, Nat.le_refl _⟩

theorem holdStorable_withItems {patch : Fields} (h : patch.HoldStorable) (subtotal : Float) :
    (withItems patch subtotal).HoldStorable := by
  unfold withItems
  split
  · exact h
  · rename_i items hitems
    exact (h.set _ (isStorable_priceItems (h.of_get? hitems))).set _ (isStorable_amountJson _)
  · exact h.set _ (isStorable_amountJson _)

theorem holdStorable_priced (stored : Option Json) {patch : Fields} (h : patch.HoldStorable) :
    (priced stored patch).HoldStorable := by
  unfold priced
  split
  · exact (holdStorable_withItems h _).set _ (isStorable_amountJson _)
  · exact h

theorem holdStorable_effectivePatch (e : Entity) (previous : Fields) {patch : Fields}
    (h : patch.HoldStorable) : (effectivePatch e previous patch).HoldStorable := by
  have hkept : (withoutBlanks patch).HoldStorable := h.filter _
  unfold effectivePatch
  split
  · exact holdStorable_priced _ hkept
  · exact hkept

theorem holdStorable_stamped {patch : Fields} (h : patch.HoldStorable) (userId : Identifier)
    (time : Time.Instant) : (stamped patch userId time).HoldStorable :=
  (h.set _ userId.isStorable_toJson).set _ (Json.isStorable_str _)

theorem holdStorable_defaults {e : Entity} (he : e ∈ catalog) : e.defaults.HoldStorable := by
  have hall : catalog.all fun e => e.defaults.all fun f => f.2.isScalar := by decide
  intro f hf
  exact Json.isStorable_of_isScalar
    (List.all_eq_true.mp (List.all_eq_true.mp hall e he) f hf)

theorem isStorable_newDocument {e : Entity} {values : Fields} (he : e ∈ catalog)
    (hvalues : values.HoldStorable) (id userId : Identifier) (time : Time.Instant) :
    (newDocument e id userId time values).IsStorable := by
  have hkey : Fields.IsStorable [(Path.primaryKey, id.toJson)] :=
    ⟨List.pairwise_singleton _ _, by simpa using id.isStorable_toJson⟩
  have himplied : (Audit.implied e.defaults values).HoldStorable :=
    (holdStorable_defaults he).filter _
  exact ((((hkey.overlay himplied).overlay hvalues).set _ userId.isStorable_toJson).set _
    (Json.isStorable_str _)).set _ (Json.isStorable_str _)

end Crm

end Clientele
