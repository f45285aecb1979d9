import Clientele.Proofs.Document.SameKind
import Clientele.Proofs.Filter.Meaning
import Clientele.Proofs.Store.Basic

/-!
How a stored value stands to an operand is an order wherever the two can be compared. What is at
most one operand is at most each operand that this one is at most, and two operands that can be
compared can be so in both directions.
-/
set_option autoImplicit false

namespace Clientele

instance : Std.TransCmp Time.Instant.compare :=
  inferInstanceAs (Std.TransCmp (compareLex (compareOn Time.Instant.day)
    (compareLex (compareOn fun t : Time.Instant => t.second.val)
      (compareOn fun t : Time.Instant => t.nano.val))))

namespace Filter

theorem isAtMost_iff {o : Option Ordering} : isAtMost o ↔ ∃ c, o = some c ∧ c.isLE := by
  match o with
  | none => simp [isAtMost]
  | some .lt | some .eq | some .gt => simp [isAtMost]

theorem isAtLeast_iff {o : Option Ordering} : isAtLeast o ↔ ∃ c, o = some c ∧ c.isGE := by
  match o with
  | none => simp [isAtLeast]
  | some .lt | some .eq | some .gt => simp [isAtLeast]

/-- A comparison of a stored value, the second argument, with an operand, which is an order wherever
it says something. -/
structure IsOrder (stands : Json → Json → Option Ordering) : Prop where
  atMost_trans {a b v : Json} : isAtMost (stands b a) → isAtMost (stands a v) → isAtMost (stands b v)
  atLeast_trans {a b v : Json} :
    isAtLeast (stands b a) → isAtLeast (stands a v) → isAtLeast (stands b v)
  swap {a b : Json} : a.collapse = a → b.collapse = b → ∀ {o : Ordering},
    stands b a = some o → stands a b = some o.swap

theorem IsOrder.of_related {cmp : Json → Json → Ordering} [Std.TransCmp cmp]
    {related : Json → Json → Prop} {stands : Json → Json → Option Ordering}
    (h : ∀ {a b o}, stands b a = some o ↔ related a b ∧ cmp a b = o)
    (htrans : ∀ {a b c}, related a b → related b c → related a c)
    (hsymm : ∀ {a b}, a.collapse = a → b.collapse = b → related a b → related b a) :
    IsOrder stands where
  atMost_trans {a b v} hab hva := by
    obtain ⟨o, ho, hle⟩ := isAtMost_iff.mp hab
    obtain ⟨o', ho', hle'⟩ := isAtMost_iff.mp hva
    obtain ⟨hrab, rfl⟩ := h.mp ho
    obtain ⟨hrva, rfl⟩ := h.mp ho'
    exact isAtMost_iff.mpr
      ⟨cmp v b, h.mpr ⟨htrans hrva hrab, rfl⟩, Std.TransCmp.isLE_trans hle' hle⟩
  atLeast_trans {a b v} hab hva := by
    obtain ⟨o, ho, hge⟩ := isAtLeast_iff.mp hab
    obtain ⟨o', ho', hge'⟩ := isAtLeast_iff.mp hva
    obtain ⟨hrab, rfl⟩ := h.mp ho
    obtain ⟨hrva, rfl⟩ := h.mp ho'
    exact isAtLeast_iff.mpr
      ⟨cmp v b, h.mpr ⟨htrans hrva hrab, rfl⟩, Std.TransCmp.isGE_trans hge' hge⟩
  swap {a b} ha hb {o} hab := by
    obtain ⟨hrab, rfl⟩ := h.mp hab
    exact h.mpr ⟨hsymm ha hb hrab, Std.OrientedCmp.eq_swap⟩

theorem IsOrder.of_keys {α : Type} [Ord α] [Std.TransOrd α] (key : Json → Option α) :
    IsOrder fun operand stored =>
      (key stored).bind fun a => (key operand).bind fun b => some (compare a b) := by
  have hsome {a b : Json} {o : Ordering} :
      ((key a).bind fun x => (key b).bind fun y => some (compare x y)) = some o ↔
        ((key a).isSome ∧ (key b).isSome) ∧ compareOn key a b = o := by
    cases ha : key a <;> cases hb : key b <;> simp [compareOn, ha, hb]
    exact Iff.rfl
  exact .of_related hsome (fun hab hbc => ⟨hab.1, hbc.2⟩) fun _ _ hab => hab.symm

theorem isOrder_standing (kind : FieldKind) : IsOrder (standing kind) := by
  cases kind with
  | identifier => exact .of_keys Identifier.ofJson?
  | date =>
    let order : Ord Time.Instant := ⟨Time.Instant.compare⟩
    have : Std.TransOrd Time.Instant := inferInstanceAs (Std.TransCmp Time.Instant.compare)
    exact .of_keys dateOf?
  | plain =>
    exact .of_related Json.compareSameKind?_eq_some_iff Json.Comparable.trans Json.Comparable.symm

end Filter

end Clientele
