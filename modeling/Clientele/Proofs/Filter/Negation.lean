import Clientele.Filter.Compile
import Clientele.Proofs.Outcome

/-!
Operators that ask for the opposite of each other. With one operand, both of the leaves are refused,
or both set no condition, or they set two conditions on one path, and each document meets just one
of these.
-/
set_option autoImplicit false

namespace Clientele.Filter

/-- The operator that asks for the opposite, of those that say `not`. -/
def Operator.negation? : Operator → Option Operator
  | is => some isNot
  | eq => some neq
  | oneOf => some noneOf
  | like => some notLike
  | iLike => some notILike
  | between => some notBetween
  | _ => none

namespace Condition

/-- The condition that is met just where this one is not. -/
def negate : Condition → Condition
  | present expected => present !expected
  | some c => none c
  | none c => some c

theorem holds_negate (c : Condition) (stored : Option Json) :
    c.negate.holds stored = !c.holds stored := by
  cases c with
  | present expected => cases hs : stored.isSome <;> cases expected <;> simp [negate, holds, hs]
  | some c => rfl
  | none c => exact (Bool.not_not _).symm

end Condition

variable {op neg : Operator}

/-- An operand means the same to an operator and to the one that asks for the opposite. -/
theorem conditionOf_negation (h : op.negation? = some neg) (kind : FieldKind) (v : Json) :
    conditionOf kind neg v = (conditionOf kind op v).map (Option.map Condition.negate) := by
  cases op <;> cases h
  case is =>
    simp only [conditionOf]
    cases flagOf v <;> rfl
  case eq =>
    simp only [conditionOf]
    cases coerceSingle kind v <;> rfl
  case oneOf =>
    simp only [conditionOf]
    cases coerceList kind v <;> rfl
  case like =>
    simp only [conditionOf]
    rcases patternOf false v with _ | _ | _ <;> rfl
  case iLike =>
    simp only [conditionOf]
    rcases patternOf true v with _ | _ | _ <;> rfl
  case between =>
    simp only [conditionOf]
    rcases rangeOf kind v with _ | _ | _ <;> rfl

/-- The leaves of two operators on one field, of which one asks for the opposite of the other. -/
inductive Opposed (path : Path) (op neg : Operator) :
    Except Error Predicate → Except Error Predicate → Prop
  | refused (fault : OperandFault) :
    Opposed path op neg (.error (.operand path op.name fault)) (.error (.operand path neg.name fault))
  | unconditional : Opposed path op neg (.ok .always) (.ok .always)
  | conditions {c d : Condition}
    (apart : ∀ doc, (Predicate.field path d).holds doc = !(Predicate.field path c).holds doc) :
    Opposed path op neg (.ok (.field path c)) (.ok (.field path d))

/-- An operator and the one that asks for the opposite divide the documents between them, unless
they set no condition or are refused. -/
theorem opposed_of_negation (h : op.negation? = some neg) (field : Path) (v : Json) :
    Opposed field.normalize op neg (compileLeaf field op v) (compileLeaf field neg v) := by
  simp only [compileLeaf]
  split
  · exact .unconditional
  · rw [conditionOf_negation h]
    rcases conditionOf (fieldKind field.normalize) op v with fault | _ | c
    · exact .refused fault
    · exact .unconditional
    · exact .conditions fun doc => c.holds_negate (doc.at? field.normalize)

/-- Companies with an amount in a range among their deals, and those without: the bounds are given
upside down, the first company has no deals and the second one a deal without an amount. -/
theorem opposed_of_negation_between :
    let field : Path := ⟨["deals", "amount"]⟩
    let bounds : Json := .arr [.ofNat 40, .ofNat 10]
    let company (deals : List Fields) : Json := .obj [("deals", .arr (deals.map .obj))]
    let companies : List Json := [company [], company [[]],
      company [[("amount", .ofNat 70)], [("amount", .ofNat 25)]], company [[("amount", .ofNat 70)]]]
    Operator.negation? .between = some .notBetween ∧
      Opposed field.normalize .between .notBetween (compileLeaf field .between bounds)
        (compileLeaf field .notBetween bounds) ∧
      (compileLeaf field .notBetween bounds).toOption.map (fun p => companies.map (p.holds ·)) =
        some [true, true, false, true] := by
  intro field bounds company companies
  exact ⟨rfl, opposed_of_negation rfl field bounds, by decide +kernel⟩

end Clientele.Filter
