import Clientele.Proofs.Crm.Pricing

/-!
Pricing a patch again changes nothing, for the amounts that are written are not read. Apart from the
amounts a priced patch is what it was: no other key is added, moved or written, in the patch or in
its items.
-/
set_option autoImplicit false

namespace Clientele.Crm

theorem pricedItem_pricedItem (item : Fields) : pricedItem (pricedItem item) = pricedItem item := by
  rw [pricedItem, itemTotal_pricedItem, pricedItem, Fields.set_set]

theorem priceItems_priceItems (items : List Json) :
    priceItems (priceItems items) = priceItems items := by
  rw [priceItems, priceItems, List.map_map]
  refine List.map_congr_left fun v _ => ?_
  cases v with
  | obj item => exact congrArg Json.obj (pricedItem_pricedItem item)
  | _ => rfl

theorem itemsTotal_priceItems (items : List Json) :
    itemsTotal (priceItems items) = itemsTotal items := by
  rw [itemsTotal_eq_sumOfItems, filterMap_priceItems, sumOfItems_pricedItem,
    itemsTotal_eq_sumOfItems]

variable (stored : Option Json) (patch : Fields)

theorem nodup_keys_amounts : (amounts stored patch).keys.Nodup :=
  (keys_amounts_sublist stored patch).nodup (by decide)

theorem get?_priced (key : String) :
    (priced stored patch).get? key = ((amounts stored patch).get? key).or (patch.get? key) := by
  rw [priced_eq_overlay, Fields.get?_overlay (nodup_keys_amounts stored patch)]

theorem get?_priced_of_not_mem {key : String} (hkey : key ∉ amountNames patch) :
    (priced stored patch).get? key = patch.get? key := by
  rw [get?_priced, get?_amounts_of_not_mem hkey, Option.none_or]

theorem get?_priced_tax : (priced stored patch).get? "tax" = patch.get? "tax" :=
  get?_priced_of_not_mem stored patch tax_not_mem_amountNames

theorem get?_priced_items : (priced stored patch).get? "items" =
    (patch.get? "items").map fun
      | .arr items => .arr (priceItems items)
      | v => v := by
  by_cases hlist : ∃ items, patch.get? "items" = some (.arr items)
  · obtain ⟨items, hitems⟩ := hlist
    rw [get?_priced, get?_amounts_items hitems, hitems]
    rfl
  · rw [not_exists] at hlist
    rw [get?_priced_of_not_mem stored patch (items_not_mem_amountNames hlist)]
    cases hitems : patch.get? "items" with
    | none => rfl
    | some v =>
      cases v with
      | arr items => exact absurd hitems (hlist items)
      | _ => rfl

theorem subtotalOf_priced : subtotalOf stored (priced stored patch) = subtotalOf stored patch := by
  rw [subtotalOf, subtotalOf, get?_priced_items]
  cases patch.get? "items" with
  | none => rfl
  | some v =>
    cases v with
    | arr items => exact itemsTotal_priceItems items
    | _ => rfl

theorem itemAmounts_priced (subtotal : Float) :
    itemAmounts (priced stored patch) subtotal = itemAmounts patch subtotal := by
  unfold itemAmounts
  rw [get?_priced_items]
  cases patch.get? "items" with
  | none => rfl
  | some v =>
    cases v with
    | arr items => simp only [Option.map_some, priceItems_priceItems]
    | _ => rfl

theorem amounts_priced : amounts stored (priced stored patch) = amounts stored patch := by
  have hitems : (priced stored patch).has "items" = patch.has "items" := by
    rw [Fields.has, get?_priced_items, Option.isSome_map, Fields.has]
  have htax : (priced stored patch).has "tax" = patch.has "tax" := by
    rw [Fields.has, get?_priced_tax, Fields.has]
  have hrate : taxOf stored (priced stored patch) = taxOf stored patch := by
    rw [taxOf, get?_priced_tax, taxOf]
  simp only [amounts, hitems, htax, hrate, subtotalOf_priced, itemAmounts_priced]

theorem priced_priced : priced stored (priced stored patch) = priced stored patch := by
  rw [priced_eq_overlay stored (priced stored patch), amounts_priced, priced_eq_overlay,
    Fields.overlay_overlay_self (nodup_keys_amounts stored patch)]

theorem rewrites_priced : patch.Rewrites (amountNames patch) (priced stored patch) := by
  rw [priced_eq_overlay, ← keys_amounts stored patch]
  exact Fields.rewrites_overlay (nodup_keys_amounts stored patch) patch

/-- A patch that is priced twice over the same quote is as it is after the first time. Without items
and tax it is not touched. Otherwise the total is written, the subtotal too where there are items,
and the total of each item in a list of them; nothing else is. -/
theorem priced_frame :
    priced stored (priced stored patch) = priced stored patch ∧
    (patch.has "items" = false → patch.has "tax" = false → priced stored patch = patch) ∧
    patch.Rewrites (amountNames patch) (priced stored patch) ∧
    ∀ items, patch.get? "items" = some (.arr items) → ∃ items',
      (priced stored patch).get? "items" = some (.arr items') ∧
        List.Forall₂ KeepsItem items items' := by
  refine ⟨priced_priced stored patch, fun hitems htax => ?_, rewrites_priced stored patch,
    fun items hitems => ⟨priceItems items, ?_, keepsItem_priceItems items⟩⟩
  · rw [priced, hitems, htax]
    rfl
  · rw [get?_priced_items, hitems]
    rfl

example : (priced none [("total", .num .zero), ("items", .arr [.null, .obj []]),
    ("title", .str "Servers")]).keys = ["total", "items", "title", "subTotal"] := by
  decide +kernel

end Clientele.Crm
