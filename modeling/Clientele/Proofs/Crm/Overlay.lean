import Clientele.Proofs.Crm.Atomicity
import Clientele.Proofs.Crm.Stamps
import Clientele.Proofs.Store.OrderedMap

/-!
An update changes exactly what it should. The document that it writes is the one that was there,
written over with the patch, then with the amounts where the entity is priced, then with the stamps;
whatever these do not name stays as it is, in its place.
-/
set_option autoImplicit false

namespace Clientele.Crm

def itemAmounts (patch : Fields) (subtotal : Float) : Fields :=
  match patch.get? "items" with
  | none => []
  | some (.arr items) => [("items", .arr (priceItems items)), ("subTotal", amountJson subtotal)]
  | some _ => [("subTotal", amountJson subtotal)]

def amounts (stored : Option Json) (patch : Fields) : Fields :=
  if patch.has "items" || patch.has "tax" then
    let subtotal := subtotalOf stored patch
    itemAmounts patch subtotal ++
      [("total", amountJson (subtotal + subtotal * taxOf stored patch / 100.0))]
  else []

theorem withItems_eq_overlay (patch : Fields) (subtotal : Float) :
    withItems patch subtotal = patch.overlay (itemAmounts patch subtotal) := by
  cases hitems : patch.get? "items" with
  | none => simp only [withItems, itemAmounts, hitems, Fields.overlay, List.foldl_nil]
  | some v => cases v <;> simp only [withItems, itemAmounts, hitems] <;> rfl

theorem priced_eq_overlay (stored : Option Json) (patch : Fields) :
    priced stored patch = patch.overlay (amounts stored patch) := by
  unfold priced amounts
  split
  · simp only [withItems_eq_overlay, Fields.overlay_append]
    rfl
  · rfl

def amountNames (patch : Fields) : List String :=
  match patch.get? "items" with
  | some (.arr _) => ["items", "subTotal", "total"]
  | some _ => ["subTotal", "total"]
  | none => if patch.has "tax" then ["total"] else []

theorem keys_amounts (stored : Option Json) (patch : Fields) :
    (amounts stored patch).keys = amountNames patch := by
  unfold amounts amountNames itemAmounts Fields.has
  cases patch.get? "items" with
  | none => cases patch.get? "tax" <;> rfl
  | some v => cases v <;> rfl

theorem keys_amounts_sublist (stored : Option Json) (patch : Fields) :
    (amounts stored patch).keys.Sublist ["items", "subTotal", "total"] := by
  rw [keys_amounts, amountNames]
  split
  · exact .refl _
  · exact .cons _ (.refl _)
  · split
    · exact .cons _ (.cons _ (.refl _))
    · exact List.nil_sublist _

/-- The amounts that an entity has recomputed in an update. -/
def amountsFor (e : Entity) (previous patch : Fields) : Fields :=
  if e.pricing then amounts (some (.obj previous)) (withoutBlanks patch) else []

theorem effectivePatch_eq_overlay (e : Entity) (previous patch : Fields) :
    effectivePatch e previous patch =
      (withoutBlanks patch).overlay (amountsFor e previous patch) := by
  unfold effectivePatch amountsFor
  split
  · exact priced_eq_overlay _ _
  · rfl

theorem keys_amountsFor_sublist (e : Entity) (previous patch : Fields) :
    (amountsFor e previous patch).keys.Sublist ["items", "subTotal", "total"] := by
  unfold amountsFor
  split
  · exact keys_amounts_sublist _ _
  · exact List.nil_sublist _

theorem nodup_keys_amountsFor (e : Entity) (previous patch : Fields) :
    (amountsFor e previous patch).keys.Nodup :=
  List.Nodup.sublist (keys_amountsFor_sublist e previous patch) (by decide)

theorem nodup_keys_withoutBlanks {patch : Fields} (hpatch : patch.keys.Nodup) :
    (withoutBlanks patch).keys.Nodup := hpatch.sublist (List.filter_sublist.map _)

theorem get?_withoutBlanks_of_blank {patch : Fields} (hpatch : patch.keys.Nodup) {key : String}
    (hblank : patch.get? key = some (.str "")) : (withoutBlanks patch).get? key = none := by
  refine Fields.get?_eq_none.mpr fun f hf heq => ?_
  obtain ⟨hmem, hkept⟩ := List.mem_filter.mp hf
  have hget := Fields.get?_of_mem hpatch hmem
  rw [heq, hblank] at hget
  rw [← Option.some.inj hget] at hkept
  exact absurd hkept (by decide)

/-- What an update writes over a document, in the order in which it does. -/
def overlaid (e : Entity) (previous patch : Fields) (userId : Identifier) (time : Time.Instant) :
    Fields :=
  withoutBlanks patch ++ amountsFor e previous patch ++ updateStampsOf userId time

section

variable {patch : Fields} (hpatch : patch.keys.Nodup) (e : Entity) (previous : Fields)
  (userId : Identifier) (time : Time.Instant)

theorem primaryKey_not_mem_overlaid (hkey : patch.has Path.primaryKey = false) :
    Path.primaryKey ∉ (overlaid e previous patch userId time).keys := by
  have hfields : Path.primaryKey ∉ (withoutBlanks patch).keys := by
    intro hmem
    have hthere := Fields.has_iff.mpr ((List.filter_sublist.map _).mem hmem)
    rw [hkey] at hthere
    cases hthere
  have hamounts : Path.primaryKey ∉ (amountsFor e previous patch).keys := fun hmem =>
    absurd ((keys_amountsFor_sublist e previous patch).mem hmem) (by decide)
  have hstamps : Path.primaryKey ∉ updateStamps := by decide
  intro hmem
  rw [overlaid, Fields.keys, List.map_append, List.map_append, List.mem_append,
    List.mem_append] at hmem
  exact hmem.elim (fun h => h.elim hfields hamounts) hstamps

include hpatch

theorem updatedDocument_eq_overlay (hkey : patch.has Path.primaryKey = false) :
    Book.updatedDocument e previous patch userId time =
      previous.overlay (overlaid e previous patch userId time) := by
  have hblanks := nodup_keys_withoutBlanks hpatch
  have hstamped : stamped (effectivePatch e previous patch) userId time =
      ((withoutBlanks patch).overlay (amountsFor e previous patch)).overlay
        (updateStampsOf userId time) := by
    rw [← effectivePatch_eq_overlay]
    rfl
  -- The store takes an identifier out of what it writes over a document; here there is none.
  have hkept : (stamped (effectivePatch e previous patch) userId time).filter
      (·.1 ≠ Path.primaryKey) = stamped (effectivePatch e previous patch) userId time := by
    refine List.filter_eq_self.mpr fun f hf => decide_eq_true fun heq => ?_
    have hmem := Fields.mem_keys hf
    rw [hstamped, heq, Fields.mem_keys_overlay, Fields.mem_keys_overlay] at hmem
    refine primaryKey_not_mem_overlaid e previous userId time hkey ?_
    rw [overlaid, Fields.keys, List.map_append, List.map_append, List.mem_append, List.mem_append]
    exact hmem
  rw [Book.updatedDocument, Store.Collection.patched, hkept, hstamped, overlaid,
    Fields.overlay_overlay (Fields.nodup_keys_overlay hblanks _), Fields.overlay_overlay hblanks,
    Fields.overlay_append, Fields.overlay_append]

/-- The stamps come before the amounts, these before the patch, and the patch before what was
there. -/
theorem get?_overlay_overlaid (key : String) :
    (previous.overlay (overlaid e previous patch userId time)).get? key =
      ((updateStampsOf userId time).get? key).or
        (((amountsFor e previous patch).get? key).or
          (((withoutBlanks patch).get? key).or (previous.get? key))) := by
  have hstamps : (updateStampsOf userId time).keys.Nodup :=
    show updateStamps.Nodup by decide
  rw [overlaid, Fields.overlay_append, Fields.overlay_append, Fields.get?_overlay hstamps,
    Fields.get?_overlay (nodup_keys_amountsFor e previous patch),
    Fields.get?_overlay (nodup_keys_withoutBlanks hpatch)]

end

/-- What a document is after an update. -/
structure Overlays (e : Entity) (previous patch : Fields) (userId : Identifier)
    (time : Time.Instant) (node : Fields) : Prop where
  written : node = previous.overlay (overlaid e previous patch userId time)
  keys : node.keys = previous.keys ++
    ((overlaid e previous patch userId time).keys.filter (· ∉ previous.keys)).eraseDups
  values : ∀ key, node.get? key = ((updateStampsOf userId time).get? key).or
    (((amountsFor e previous patch).get? key).or
      (((withoutBlanks patch).get? key).or (previous.get? key)))
  blanks : ∀ key, patch.get? key = some (.str "") →
    node.get? key = ((updateStampsOf userId time).get? key).or
      (((amountsFor e previous patch).get? key).or (previous.get? key))
  primaryKey : Path.primaryKey ∉ (overlaid e previous patch userId time).keys
  kept : ∀ (i : Nat) (f : String × Json), previous[i]? = some f →
    f.1 ∉ (overlaid e previous patch userId time).keys → node[i]? = some f

theorem overlays_updatedDocument {patch : Fields} (hpatch : patch.keys.Nodup)
    (hkey : patch.has Path.primaryKey = false) (e : Entity) (previous : Fields)
    (userId : Identifier) (time : Time.Instant) :
    Overlays e previous patch userId time
      (Book.updatedDocument e previous patch userId time) := by
  have hvalues := get?_overlay_overlaid hpatch e previous userId time
  rw [updatedDocument_eq_overlay hpatch e previous userId time hkey]
  refine ⟨rfl, Fields.keys_overlay _ _, hvalues, fun key hblank => ?_,
    primaryKey_not_mem_overlaid e previous userId time hkey,
    fun _ _ => Fields.getElem?_overlay_of_not_mem⟩
  rw [hvalues, get?_withoutBlanks_of_blank hpatch hblank, Option.none_or]

namespace Book

variable {b b' : Book} {e : Entity} {id userId : Identifier} {m : Mutation}

/-- What a book is after an update of a document. -/
structure Updates (b : Book) (e : Entity) (id : Identifier) (previous node : Fields) (b' : Book) :
    Prop where
  before : b.store.get? e.collection id = some previous
  after : b'.store.get? e.collection id = some node
  place : ∃ i : Nat, (b.store.collection e.collection).documents[i]? = some previous ∧
    (b'.store.collection e.collection).documents =
      (b.store.collection e.collection).documents.set i node
  otherDocuments : (b.store.collection e.collection).WellIndexed → ∀ other, other ≠ id →
    b'.store.get? e.collection other = b.store.get? e.collection other
  otherCollections : ∀ name, name ≠ e.collection → b.trail.Spares name →
    b'.store.collection name = b.store.collection name

theorem updateOne_ok_inv (he : e ∈ catalog) {patch : Json}
    (hrun : b.updateOne e id patch userId = (.ok m, b')) :
    ∃ (fields previous written : Fields), patch = .obj fields ∧
      fields.has Path.primaryKey = false ∧ b.store.get? e.collection id = some previous ∧
      m.node = updatedDocument e previous fields userId b.now.1 ∧
      (b.store.collection e.collection).update id written =
        some (m.node, b'.store.collection e.collection) ∧ b.OnlyWrites e.collection b' := by
  obtain ⟨err, hfailed⟩ | ⟨fields, previous, _, _, hw, hpayload, hprevious, -⟩ :=
    b.updateOne_cases e id patch userId
  · cases hrun.symm.trans hfailed
  · obtain ⟨_, _, written, hrun', hnode, hupdate, honly⟩ :=
      updateOne_eq_ok he hw hprevious hpayload userId
    cases hrun.symm.trans hrun'
    obtain ⟨rfl, hkey, -⟩ := payload_eq_ok.mp hpayload
    exact ⟨fields, previous, written, rfl, hkey, hprevious, hnode, hupdate, honly⟩

/-- An update of an entity that succeeds, with a patch whose keys are distinct, writes over the
document what it should, and touches nothing else but the records. -/
theorem updates_of_updateOne (he : e ∈ catalog) {patch : Json} (hpatch : patch.DistinctKeys)
    (hrun : b.updateOne e id patch userId = (.ok m, b')) :
    ∃ fields previous, patch = .obj fields ∧
      Overlays e previous fields userId b.now.1 m.node ∧ b.Updates e id previous m.node b' := by
  obtain ⟨fields, previous, written, rfl, hkey, hprevious, hnode, hupdate, honly⟩ :=
    updateOne_ok_inv he hrun
  obtain ⟨i, old, hi, hold, hpatched, hcollection⟩ := Store.Collection.update_eq_some hupdate
  have hthere : (b.store.collection e.collection).documents[i]? = some previous := by
    rwa [Store.get?, Store.Collection.get?, hi, Option.bind_some] at hprevious
  refine ⟨fields, previous, rfl, ?_, hprevious, Store.Collection.get?_of_update hupdate,
    ⟨i, hthere, ?_⟩, fun hindex other hne => hindex.get?_of_update_of_ne hupdate hne.symm,
    honly.others⟩
  · rw [hnode]
    exact overlays_updatedDocument hpatch hkey e previous userId b.now.1
  · rw [hcollection, hpatched]

theorem updates_of_updateOne_quote :
    let time : Time.Instant := ⟨19844, 36000, 250000000⟩
    let quote : Fields := [("_id", .str "00000000-0000-0000-0000-000000000007"),
      ("title", .str "Servers"), ("total", .num .zero)]
    let b : Book := ⟨(Store.empty.insert "quotes" (.obj quote)).2, .documents, .zero, [],
      ⟨fun n => ⟨BitVec.ofNat 128 n⟩, fun _ => time, 0, 0⟩⟩
    let item : Fields := [("unitPrice", .ofNat 100), ("quantity", .ofNat 2)]
    let patch : Json := .obj [("title", .str ""), ("items", .arr [.obj item]), ("tax", .ofNat 5)]
    let written : List (String × Option String) :=
      [("_id", some "00000000-0000-0000-0000-000000000007"), ("title", some "Servers"),
        ("total", some "210"),
        ("items", some "[\x7b\"unitPrice\":100,\"quantity\":2,\"totalPrice\":200\x7d]"),
        ("tax", some "5"), ("subTotal", some "200"),
        ("updatedById", some "00000000-0000-0000-0000-000000000063"),
        ("updatedAt", some "2024-05-01T10:00:00.250Z")]
    quotes ∈ catalog ∧ patch.DistinctKeys ∧
      ∃ m b', b.updateOne quotes ⟨7⟩ patch ⟨99⟩ = (.ok m, b') ∧
        (m.node.map fun f => (f.1, Audit.render f.2)) = written ∧
        ∃ fields previous, patch = .obj fields ∧
          Overlays quotes previous fields ⟨99⟩ b.now.1 m.node ∧
          b.Updates quotes ⟨7⟩ previous m.node b' := by
  intro time quote b item patch written
  have hquotes : quotes ∈ catalog := by simp [catalog]
  have hpatch : patch.DistinctKeys := by simp [patch, Json.DistinctKeys, Fields.keys]
  obtain ⟨m, b', hrun, hnode⟩ := Except.exists_run (b.updateOne quotes ⟨7⟩ patch ⟨99⟩)
    (fun m => m.node.map fun f => (f.1, Audit.render f.2)) (b := written) (by decide +kernel)
  exact ⟨hquotes, hpatch, m, b', hrun, hnode, updates_of_updateOne hquotes hpatch hrun⟩

end Book

end Clientele.Crm
