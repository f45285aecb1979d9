import Clientele.Json.Value

/-!
Prices of quotes. An item costs its unit price times its quantity, less its discount in percent; the
items add up to the subtotal, and the tax in percent is added to that. A patch is priced when it
brings items or a tax, and takes the other one from the stored quote.
-/
set_option autoImplicit false

namespace Clientele.Crm

def amountOf : Option Json → Float
  | some (.num n) => n.toFloat
  | _ => 0

/-- An amount as a value: an integer where it is one below 2^63, nothing where it is not finite. -/
def amountJson (x : Float) : Json :=
  match Number.ofFloat? x with
  | none => .null
  | some n =>
    match Decimal.toInt? x with
    | some i => if i.natAbs < 0x8000000000000000 then .num ((Number.ofInt? i).getD n) else .num n
    | none => .num n

def itemTotal (item : Fields) : Float :=
  amountOf (item.get? "unitPrice") * amountOf (item.get? "quantity") *
    (100.0 - amountOf (item.get? "discount")) / 100.0

/-- The items with their totals; what is not an object stays as it is. -/
def priceItems (items : List Json) : List Json :=
  items.map fun
    | .obj item => .obj (Fields.set item "totalPrice" (amountJson (itemTotal item)))
    | v => v

def itemsTotal (items : List Json) : Float :=
  items.foldl (fun sum v =>
    match v with
    | .obj item => sum + itemTotal item
    | _ => sum) 0

def subtotalOf (stored : Option Json) (patch : Fields) : Float :=
  match patch.get? "items" with
  | some (.arr items) => itemsTotal items
  | _ => amountOf (stored.bind (·.get? "subTotal"))

def taxOf (stored : Option Json) (patch : Fields) : Float :=
  amountOf ((patch.get? "tax").orElse fun _ => stored.bind (·.get? "tax"))

def withItems (patch : Fields) (subtotal : Float) : Fields :=
  match patch.get? "items" with
  | none => patch
  | some (.arr items) =>
    (patch.set "items" (.arr (priceItems items))).set "subTotal" (amountJson subtotal)
  | some _ => patch.set "subTotal" (amountJson subtotal)

def priced (stored : Option Json) (patch : Fields) : Fields :=
  if patch.has "items" || patch.has "tax" then
    let subtotal := subtotalOf stored patch
    (withItems patch subtotal).set "total"
      (amountJson (subtotal + subtotal * taxOf stored patch / 100.0))
  else patch

end Clientele.Crm
