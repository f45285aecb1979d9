import Clientele.Proofs.Crm.Overlay

/-!
The amounts of a quote after an update that brings items or a tax. A list of items is priced and
adds up to the subtotal. Without one the items and the subtotal are not looked at, whether they
agree or not, for a quote is not priced when it is created. The total is on the sum of the list, or
else on the subtotal that was stored before the update.
-/
set_option autoImplicit false

namespace Clientele.Crm

def itemsOf (quote : Fields) : List Fields :=
  (((quote.get? "items").bind Json.items?).getD []).filterMap Json.fields?

/-- What items cost together, added up from the first to the last. -/
def sumOfItems (items : List Fields) : Float := (items.map itemTotal).foldl (· + ·) 0

/-- Whether each item of a quote has its total, and the quote their sum. -/
structure AddsUp (quote : Fields) : Prop where
  items : ∀ item ∈ itemsOf quote, item.get? "totalPrice" = some (amountJson (itemTotal item))
  subtotal : quote.get? "subTotal" = some (amountJson (sumOfItems (itemsOf quote)))

theorem addsUp_congr {quote quote' : Fields} (hitems : quote.get? "items" = quote'.get? "items")
    (hsubtotal : quote.get? "subTotal" = quote'.get? "subTotal") :
    AddsUp quote ↔ AddsUp quote' := by
  have hobjects : itemsOf quote = itemsOf quote' := by rw [itemsOf, itemsOf, hitems]
  constructor <;> rintro ⟨hall, hsum⟩
  · exact ⟨hobjects ▸ hall, by rw [← hsubtotal, hsum, hobjects]⟩
  · exact ⟨hobjects ▸ hall, by rw [hsubtotal, hsum, hobjects]⟩

def pricedItem (item : Fields) : Fields := item.set "totalPrice" (amountJson (itemTotal item))

theorem itemTotal_pricedItem (item : Fields) : itemTotal (pricedItem item) = itemTotal item := by
  simp [itemTotal, pricedItem, Fields.get?_set]

theorem filterMap_priceItems (items : List Json) :
    (priceItems items).filterMap Json.fields? = (items.filterMap Json.fields?).map pricedItem := by
  rw [priceItems, List.filterMap_map, List.map_filterMap]
  refine List.filterMap_congr fun v _ => ?_
  cases v <;> rfl

theorem itemsTotal_eq_sumOfItems (items : List Json) :
    itemsTotal items = sumOfItems (items.filterMap Json.fields?) := by
  rw [itemsTotal, sumOfItems]
  generalize (0 : Float) = sum
  induction items generalizing sum with
  | nil => rfl
  | cons v items ih =>
    rw [List.foldl_cons, ih]
    cases v <;> rfl

theorem sumOfItems_pricedItem (items : List Fields) :
    sumOfItems (items.map pricedItem) = sumOfItems items := by
  have htotal : itemTotal ∘ pricedItem = itemTotal := funext itemTotal_pricedItem
  rw [sumOfItems, sumOfItems, List.map_map, htotal]

theorem addsUp_of_priceItems {quote : Fields} {items : List Json}
    (hitems : quote.get? "items" = some (.arr (priceItems items)))
    (hsubtotal : quote.get? "subTotal" = some (amountJson (itemsTotal items))) :
    AddsUp quote ∧ sumOfItems (itemsOf quote) = itemsTotal items := by
  have hobjects : itemsOf quote = (items.filterMap Json.fields?).map pricedItem := by
    rw [itemsOf, hitems, ← filterMap_priceItems]
    rfl
  have hsum : sumOfItems (itemsOf quote) = itemsTotal items := by
    rw [hobjects, sumOfItems_pricedItem, itemsTotal_eq_sumOfItems]
  refine ⟨⟨fun item hitem => ?_, by rw [hsubtotal, hsum]⟩, hsum⟩
  rw [hobjects] at hitem
  obtain ⟨item, -, rfl⟩ := List.mem_map.mp hitem
  rw [itemTotal_pricedItem, pricedItem, Fields.get?_set, if_pos rfl]

/-- An item and what becomes of it: of an object the total is written, all else is kept. -/
inductive KeepsItem : Json → Json → Prop
  | other {v : Json} (h : v.fields? = none) : KeepsItem v v
  | object {item item' : Fields} (h : item.Rewrites ["totalPrice"] item') :
      KeepsItem (.obj item) (.obj item')

theorem keepsItem_priceItems (items : List Json) :
    List.Forall₂ KeepsItem items (priceItems items) := by
  rw [priceItems, List.forall₂_map_right_iff, List.forall₂_same]
  intro v _
  cases v with
  | obj item => exact .object (Fields.rewrites_set item "totalPrice" _)
  | _ => exact .other rfl

/-- Whether the total of a quote is an amount and the tax of the quote on it. -/
def IsTaxed (quote : Fields) (subtotal : Float) : Prop :=
  quote.get? "total" =
    some (amountJson (subtotal + subtotal * amountOf (quote.get? "tax") / 100.0))

/-- What the amounts of a quote are after it has been priced for a patch that brings items or a tax,
and the subtotal that its total is on. -/
structure Prices (previous patch node : Fields) (subtotal : Float) : Prop where
  tax : node.get? "tax" = (patch.get? "tax").or (previous.get? "tax")
  total : IsTaxed node subtotal
  listed : ∀ items, patch.get? "items" = some (.arr items) →
    (∃ items', node.get? "items" = some (.arr items') ∧ List.Forall₂ KeepsItem items items') ∧
      AddsUp node ∧ subtotal = sumOfItems (itemsOf node)
  unlisted : (∀ items, patch.get? "items" ≠ some (.arr items)) →
    node.get? "items" = (patch.get? "items").or (previous.get? "items") ∧
      subtotal = amountOf (previous.get? "subTotal")
  brought : patch.has "items" → node.get? "subTotal" = some (amountJson subtotal)
  kept : patch.has "items" = false →
    node.get? "subTotal" = (patch.get? "subTotal").or (previous.get? "subTotal")
  stored : patch.has "items" = false → patch.has "subTotal" = false →
    (AddsUp node ↔ AddsUp previous) ∧ IsTaxed node (amountOf (node.get? "subTotal"))

section

variable {stored : Option Json} {patch : Fields}

theorem get?_amounts_of_not_mem {key : String} (hkey : key ∉ amountNames patch) :
    (amounts stored patch).get? key = none := by
  refine Fields.get?_eq_none.mpr fun f hf heq => hkey ?_
  rw [← keys_amounts stored patch, ← heq]
  exact Fields.mem_keys hf

theorem tax_not_mem_amountNames : "tax" ∉ amountNames patch := fun h =>
  absurd ((keys_amounts_sublist none patch).mem (keys_amounts none patch ▸ h)) (by decide)

theorem items_not_mem_amountNames (h : ∀ items, patch.get? "items" ≠ some (.arr items)) :
    "items" ∉ amountNames patch := by
  unfold amountNames
  split
  · exact absurd ‹_› (h _)
  · decide
  · split <;> decide

theorem subTotal_not_mem_amountNames (h : patch.get? "items" = none) :
    "subTotal" ∉ amountNames patch := by
  simp only [amountNames, h]
  split <;> decide

theorem get?_amounts_total (h : patch.has "items" || patch.has "tax") :
    (amounts stored patch).get? "total" = some (amountJson (subtotalOf stored patch +
      subtotalOf stored patch * taxOf stored patch / 100.0)) := by
  simp only [amounts, h, if_true, itemAmounts]
  split <;> rfl

theorem get?_amounts_subTotal (h : patch.has "items") :
    (amounts stored patch).get? "subTotal" = some (amountJson (subtotalOf stored patch)) := by
  obtain ⟨v, hv⟩ := Option.isSome_iff_exists.mp h
  simp only [amounts, h, Bool.true_or, if_true, itemAmounts, hv]
  cases v <;> rfl

theorem get?_amounts_items {items : List Json} (h : patch.get? "items" = some (.arr items)) :
    (amounts stored patch).get? "items" = some (.arr (priceItems items)) := by
  have hthere : patch.has "items" := by rw [Fields.has, h]; rfl
  simp only [amounts, hthere, Bool.true_or, if_true, itemAmounts, h]
  rfl

theorem subtotalOf_of_not_list (h : ∀ items, patch.get? "items" ≠ some (.arr items)) :
    subtotalOf stored patch = amountOf (stored.bind (·.get? "subTotal")) := by
  unfold subtotalOf
  split
  · exact absurd ‹_› (h _)
  · rfl

end

theorem prices_of_overlays {e : Entity} (hpricing : e.pricing = true) {previous patch node : Fields}
    {userId : Identifier} {time : Time.Instant} (h : Overlays e previous patch userId time node)
    (hbrings : (withoutBlanks patch).has "items" || (withoutBlanks patch).has "tax") :
    Prices previous (withoutBlanks patch) node
      (subtotalOf (some (.obj previous)) (withoutBlanks patch)) := by
  have hvalues {key : String} (hkey : key ∉ updateStamps) : node.get? key =
      ((amounts (some (.obj previous)) (withoutBlanks patch)).get? key).or
        (((withoutBlanks patch).get? key).or (previous.get? key)) := by
    have hstamps : (updateStampsOf userId time).get? key = none :=
      Fields.get?_eq_none.mpr fun f hf heq => hkey (heq ▸ Fields.mem_keys hf)
    rw [h.values, hstamps, Option.none_or, amountsFor, if_pos hpricing]
  -- From here on the patch is the one without its blanks.
  generalize withoutBlanks patch = patch at *
  generalize hsubtotal : subtotalOf (some (.obj previous)) patch = subtotal
  have hunpriced {key : String} (hstamp : key ∉ updateStamps) (hkey : key ∉ amountNames patch) :
      node.get? key = (patch.get? key).or (previous.get? key) := by
    rw [hvalues hstamp, get?_amounts_of_not_mem hkey, Option.none_or]
  have htax := hunpriced (by decide) tax_not_mem_amountNames
  have htotal : IsTaxed node subtotal := by
    have hrate : taxOf (some (.obj previous)) patch = amountOf (node.get? "tax") := by
      rw [htax]
      cases hpatch : patch.get? "tax" <;> simp [taxOf, hpatch, Json.get?, Json.fields?]
    rw [IsTaxed, hvalues (by decide), get?_amounts_total hbrings, hrate, hsubtotal, Option.some_or]
  have hbrought (hitems : patch.has "items") :
      node.get? "subTotal" = some (amountJson subtotal) := by
    rw [hvalues (by decide), get?_amounts_subTotal hitems, hsubtotal, Option.some_or]
  have hunlisted (hitems : ∀ items, patch.get? "items" ≠ some (.arr items)) :
      node.get? "items" = (patch.get? "items").or (previous.get? "items") ∧
        subtotal = amountOf (previous.get? "subTotal") :=
    ⟨hunpriced (by decide) (items_not_mem_amountNames hitems),
      hsubtotal ▸ subtotalOf_of_not_list hitems⟩
  have hkept (hitems : patch.get? "items" = none) :
      node.get? "subTotal" = (patch.get? "subTotal").or (previous.get? "subTotal") :=
    hunpriced (by decide) (subTotal_not_mem_amountNames hitems)
  have hnone {key : String} (hkey : patch.has key = false) : patch.get? key = none := by
    simpa [Fields.has] using hkey
  refine ⟨htax, htotal, fun items hitems => ?_, hunlisted, hbrought, fun h => hkept (hnone h),
    fun hitems hown => ?_⟩
  · have hthere : patch.has "items" := by rw [Fields.has, hitems]; rfl
    have hsum : subtotal = itemsTotal items := by rw [← hsubtotal, subtotalOf, hitems]
    have hpriced : node.get? "items" = some (.arr (priceItems items)) := by
      rw [hvalues (by decide), get?_amounts_items hitems, Option.some_or]
    obtain ⟨hadds, hall⟩ := addsUp_of_priceItems hpriced (hsum ▸ hbrought hthere)
    exact ⟨⟨_, hpriced, keepsItem_priceItems items⟩, hadds, hsum.trans hall.symm⟩
  · obtain ⟨hlisted, hamount⟩ := hunlisted (by simp [hnone hitems])
    have hstored := hkept (hnone hitems)
    rw [hnone hitems, Option.none_or] at hlisted
    rw [hnone hown, Option.none_or] at hstored
    exact ⟨addsUp_congr hlisted hstored, hstored ▸ hamount ▸ htotal⟩

namespace Book

/-- What the amounts of a document are where an update of a priced entity succeeds whose patch
brings items or a tax. -/
theorem prices_of_updateOne {b b' : Book} {e : Entity} (he : e ∈ catalog)
    (hpricing : e.pricing = true) {id userId : Identifier} {patch : Fields}
    (hpatch : patch.keys.Nodup)
    (hbrings : (withoutBlanks patch).has "items" || (withoutBlanks patch).has "tax") {m : Mutation}
    (hrun : b.updateOne e id (.obj patch) userId = (.ok m, b')) :
    ∃ previous subtotal, b.store.get? e.collection id = some previous ∧
      Prices previous (withoutBlanks patch) m.node subtotal := by
  obtain ⟨fields, previous, _, hfields, hkey, hprevious, hnode, -⟩ := updateOne_ok_inv he hrun
  cases hfields
  have hoverlays := overlays_updatedDocument hpatch hkey e previous userId b.now.1
  rw [← hnode] at hoverlays
  exact ⟨previous, _, hprevious, prices_of_overlays hpricing hoverlays hbrings⟩

theorem prices_of_updateOne_items :
    let time : Time.Instant := ⟨19844, 36000, 250000000⟩
    let b : Book := ⟨.empty, .memory [], .zero, [],
      ⟨fun n => ⟨BitVec.ofNat 128 n⟩, fun _ => time, 0, 0⟩⟩
    let quote : Json := .obj [("title", .str "Servers"), ("tax", .ofNat 20)]
    let seat : Fields :=
      [("unitPrice", .ofNat 100), ("quantity", .ofNat 2), ("discount", .ofNat 10)]
    let setup : Fields := [("unitPrice", .ofNat 50), ("quantity", .ofNat 1)]
    let patch : Fields := [("items", .arr [.obj seat, .null, .obj setup]), ("total", .str "")]
    let b₁ := (b.createOne quotes quote ⟨99⟩).2
    quotes ∈ catalog ∧ quotes.pricing = true ∧ patch.keys.Nodup ∧
      ((withoutBlanks patch).has "items" || (withoutBlanks patch).has "tax") ∧
      ∃ m b₂, b₁.updateOne quotes ⟨0⟩ (.obj patch) ⟨99⟩ = (.ok m, b₂) ∧
        ((m.node.get? "subTotal").bind Audit.render, (m.node.get? "total").bind Audit.render) =
          (some "230", some "276") ∧
        ∃ previous subtotal, b₁.store.get? quotes.collection ⟨0⟩ = some previous ∧
          Prices previous (withoutBlanks patch) m.node subtotal := by
  intro time b quote seat setup patch b₁
  have hquotes : quotes ∈ catalog := by simp [catalog]
  have hpatch : patch.keys.Nodup := by simp [patch, Fields.keys]
  have hbrings : (withoutBlanks patch).has "items" || (withoutBlanks patch).has "tax" := by rfl
  obtain ⟨m, b₂, hrun, hamounts⟩ := Except.exists_run
    (b₁.updateOne quotes ⟨0⟩ (.obj patch) ⟨99⟩)
    (fun m => ((m.node.get? "subTotal").bind Audit.render,
      (m.node.get? "total").bind Audit.render)) (b := (some "230", some "276")) (by decide +kernel)
  exact ⟨hquotes, rfl, hpatch, hbrings, m, b₂, hrun, hamounts,
    prices_of_updateOne hquotes rfl hpatch hbrings hrun⟩

/-- A quote that is created with a subtotal but without items. A tax keeps the subtotal, which is
not the sum of the items; items that are no list keep it too; and a subtotal that comes with a tax
is written, but the tax is not on it. -/
theorem subtotal_without_items :
    let time : Time.Instant := ⟨19844, 36000, 250000000⟩
    let b : Book := ⟨.empty, .memory [], .zero, [],
      ⟨fun n => ⟨BitVec.ofNat 128 n⟩, fun _ => time, 0, 0⟩⟩
    let quote : Json := .obj [("title", .str "Servers"), ("subTotal", .ofNat 200)]
    let b₁ := (b.createOne quotes quote ⟨99⟩).2
    let amountsOf (m : Mutation) :=
      ((m.node.get? "subTotal").bind Audit.render, (m.node.get? "total").bind Audit.render)
    let fails (patch : Fields) (subtotal total : String) : Prop :=
      ∃ m b₂, b₁.updateOne quotes ⟨0⟩ (.obj patch) ⟨99⟩ = (.ok m, b₂) ∧
        amountsOf m = (some subtotal, some total) ∧ itemsOf m.node = [] ∧ ¬ AddsUp m.node
    fails [("tax", .ofNat 5)] "200" "210" ∧ fails [("items", .str "none")] "200" "200" ∧
      fails [("subTotal", .ofNat 300), ("tax", .ofNat 5)] "300" "210" := by
  intro time b quote b₁ amountsOf fails
  have hzero : Audit.render (amountJson (sumOfItems [])) = some "0" := by decide +kernel
  have hfails {patch : Fields} {subtotal total : String} (hne : subtotal ≠ "0")
      (hview : (b₁.updateOne quotes ⟨0⟩ (.obj patch) ⟨99⟩).1.toOption.map
        (fun m => (amountsOf m, (itemsOf m.node).isEmpty)) =
          some ((some subtotal, some total), true)) : fails patch subtotal total := by
    obtain ⟨m, b₂, hrun, hview⟩ := Except.exists_run _ _ hview
    rw [Prod.mk.injEq, List.isEmpty_iff] at hview
    obtain ⟨hamounts, hitems⟩ := hview
    refine ⟨m, b₂, hrun, hamounts, hitems, fun hadds => hne ?_⟩
    have hshown : (m.node.get? "subTotal").bind Audit.render = some subtotal :=
      (Prod.mk.inj hamounts).1
    rw [hadds.subtotal, hitems, Option.bind_some, hzero] at hshown
    exact (Option.some.inj hshown).symm
  exact ⟨hfails (by decide) (by decide +kernel), hfails (by decide) (by decide +kernel),
    hfails (by decide) (by decide +kernel)⟩

end Book

end Clientele.Crm
