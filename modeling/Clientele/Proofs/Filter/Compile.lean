import Mathlib.Data.List.Forall2
import Clientele.Proofs.Filter.Meaning
import Clientele.Proofs.Json.Value
import Clientele.Proofs.Outcome

/-!
A filter tree that is compiled keeps its meaning. Each operand becomes the operand of its field's
type, each operator a check that asks the same of a stored value, and predicates that set no
condition drop out of a combination as their trees do.
-/
set_option autoImplicit false

namespace Clientele

theorem Text.occursIn_iff_infix (part cs : List Char) : occursIn part cs = true ↔ part <:+: cs := by
  induction cs with
  | nil => simp [occursIn]
  | cons c cs ih => simp [occursIn, List.infix_cons_iff, ih]

namespace Filter

theorem isBlank_eq_isNothing (v : Json) : isBlank v = isNothing v := by
  have htext (s : String) : (s == "") = isNothing (.str s) := by
    by_cases h : s = ""
    · subst h
      rfl
    · simp [h, isNothing]
  have hitem (s : String) : (s == "") = isNothing (.arr [.str s]) := by
    by_cases h : s = ""
    · subst h
      rfl
    · simp [h, isNothing]
  cases v with
  | str s => exact htext s
  | arr xs =>
    match xs with
    | [.str s] => exact hitem s
    | [] | [.null] | [.bool _] | [.num _] | [.arr _] | [.obj _] => rfl
    | _ :: _ :: _ => simp [isBlank, isNothing]
  | _ => rfl

theorem hasBlankBound_eq_hasOpenEnd (v : Json) : hasBlankBound v = hasOpenEnd v := by
  unfold hasBlankBound hasOpenEnd
  split <;> simp_all [isBlank_eq_isNothing]

theorem any_candidates (test : Json → Bool) (stored : Option Json) :
    (candidates stored).any test = somePasses test stored := by
  cases stored with
  | none => rfl
  | some v => cases v <;> simp [candidates, somePasses]

variable {kind : FieldKind}

theorem compareStored?_of_coerce {v : Json} {o : Operand} (h : coerce kind v = .ok o)
    (stored : Json) : o.compareStored? stored = standing kind v stored := by
  cases kind with
  | identifier =>
    cases hv : Identifier.ofJson? v with
    | none => simp [coerce, hv] at h
    | some i =>
      simp only [coerce, hv, Option.elim_some, Except.ok.injEq] at h
      subst h
      simp only [Operand.compareStored?, standing, hv]
      cases Identifier.ofJson? stored <;> rfl
  | date =>
    cases hv : dateOf? v with
    | none => simp [coerce, hv] at h
    | some t =>
      simp only [coerce, hv, Option.elim_some, Except.ok.injEq] at h
      subst h
      simp only [Operand.compareStored?, standing, hv]
      cases dateOf? stored <;> rfl
  | plain => cases h; rfl

theorem compareStored?_of_coerceSingle {v : Json} {o : Operand} (h : coerceSingle kind v = .ok o)
    (stored : Json) : o.compareStored? stored = standing kind v stored := by
  cases v with
  | arr vs =>
    by_cases hk : kind = .plain
    · subst hk
      cases h
      rfl
    · simp [coerceSingle, hk] at h
  | _ => exact compareStored?_of_coerce h stored

theorem forall₂_of_coerceItems {vs : List Json} {os : List Operand}
    (h : coerceItems kind vs = .ok os) : List.Forall₂ (fun v o => coerce kind v = .ok o) vs os := by
  induction vs generalizing os with
  | nil => cases h; exact .nil
  | cons v vs ih =>
    obtain ⟨o, hv, h⟩ := Except.bind_eq_ok_iff.mp h
    obtain ⟨os', hvs, h⟩ := Except.bind_eq_ok_iff.mp h
    cases h
    exact .cons hv (ih hvs)

theorem any_of_coerceItems {vs : List Json} {os : List Operand} (h : coerceItems kind vs = .ok os)
    (stored : Json) :
    (os.any fun o => o.compareStored? stored == some .eq) =
      vs.any fun v => standing kind v stored == some .eq := by
  have hall := forall₂_of_coerceItems h
  clear h
  induction hall with
  | nil => rfl
  | cons hv _ ih => simp only [List.any_cons, compareStored?_of_coerce hv, ih]

theorem compare?_of_coerce {a b : Json} {oa ob : Operand} (ha : coerce kind a = .ok oa)
    (hb : coerce kind b = .ok ob) : oa.compare? ob = standing kind b a := by
  rw [← compareStored?_of_coerce hb a]
  cases kind with
  | identifier =>
    cases hv : Identifier.ofJson? a with
    | none => simp [coerce, hv] at ha
    | some i =>
      cases hw : Identifier.ofJson? b with
      | none => simp [coerce, hw] at hb
      | some j =>
        simp only [coerce, hv, hw, Option.elim_some, Except.ok.injEq] at ha hb
        subst ha hb
        simp [Operand.compare?, Operand.compareStored?, hv]
  | date =>
    cases hv : dateOf? a with
    | none => simp [coerce, hv] at ha
    | some i =>
      cases hw : dateOf? b with
      | none => simp [coerce, hw] at hb
      | some j =>
        simp only [coerce, hv, hw, Option.elim_some, Except.ok.injEq] at ha hb
        subst ha hb
        simp [Operand.compare?, Operand.compareStored?, hv]
  | plain => cases ha; cases hb; rfl

theorem orderedBounds_eq_ok {v : Json} {least most : Operand}
    (h : orderedBounds kind v = .ok (least, most)) :
    ∃ a b, v = .arr [a, b] ∧
      (∀ stored, least.compareStored? stored = standing kind (inOrder kind a b).1 stored) ∧
      ∀ stored, most.compareStored? stored = standing kind (inOrder kind a b).2 stored := by
  obtain ⟨os, hos, h⟩ := Except.bind_eq_ok_iff.mp h
  cases v with
  | arr vs =>
    cases forall₂_of_coerceItems hos with
    | nil => cases h
    | @cons a oa _ _ ha hrest =>
      cases hrest with
      | nil => cases h
      | @cons b ob _ _ hb hrest =>
        cases hrest with
        | cons => cases h
        | nil =>
          have hsa := compareStored?_of_coerce ha
          have hsb := compareStored?_of_coerce hb
          simp only [compare?_of_coerce ha hb] at h
          refine ⟨a, b, rfl, ?_⟩
          unfold inOrder
          cases hab : standing kind b a with
          | none => simp [hab] at h
          | some o => cases o <;> simp_all [pure, Except.pure]
  | _ => cases hos

variable {op : Operator} {v : Json} {stored : Option Json}

theorem some_holds {check : Check} (h : ∀ w, check.passes w = op.test kind v w)
    (hop : op ∉ [.is, .isNot] ∧ op.isNegated = false) :
    (Condition.some check).holds stored = op.accepts kind v stored := by
  rw [Condition.holds, any_candidates, funext h]
  cases op <;> first | rfl | simp [Operator.isNegated] at hop

theorem none_holds {check : Check} (h : ∀ w, check.passes w = op.test kind v w)
    (hop : op.isNegated = true) :
    (Condition.none check).holds stored = op.accepts kind v stored := by
  rw [Condition.holds, any_candidates, funext h]
  cases op <;> first | rfl | simp [Operator.isNegated] at hop

theorem patternOf_eq_ok {ignoreCase : Bool} {p : Option Pattern}
    (h : patternOf ignoreCase v = .ok p) :
    (p.isNone = isPercents v) ∧ ∀ q ∈ p, ∀ stored,
      (Check.like q).passes stored = hasPart (if ignoreCase then Text.fold else id) v stored := by
  cases v with
  | str s =>
    have hnone : (s.toList.filter (· ≠ '%')).isEmpty = isPercents (.str s) := by
      rw [Bool.eq_iff_iff]
      simp [isPercents, List.filter_eq_nil_iff]
    simp only [patternOf, Except.ok.injEq] at h
    subst h
    cases he : (s.toList.filter (· ≠ '%')).isEmpty with
    | true =>
      rw [← hnone, he]
      simp
    | false =>
      rw [← hnone, he]
      refine ⟨rfl, ?_⟩
      intro q hq stored
      simp only [Bool.false_eq_true, if_false, Option.mem_def, Option.some.injEq] at hq
      subst hq
      cases stored with
      | str t =>
        rw [Bool.eq_iff_iff]
        cases ignoreCase <;>
          simp [Check.passes, Pattern.occursIn, Text.occursIn_iff_infix, hasPart]
      | _ => rfl
  | _ => cases h

theorem rangeOf_eq_ok {c : Option Check} (h : rangeOf kind v = .ok c) :
    (c.isNone = hasOpenEnd v) ∧ ∀ check ∈ c, ∀ stored,
      check.passes stored = Operator.test kind v stored .between := by
  unfold rangeOf at h
  rw [hasBlankBound_eq_hasOpenEnd] at h
  cases he : hasOpenEnd v with
  | true =>
    simp only [he, if_true, Except.ok.injEq] at h
    subst h
    simp
  | false =>
    simp only [he, Bool.false_eq_true, if_false] at h
    obtain ⟨⟨least, most⟩, hbounds, rfl⟩ := Except.map_eq_ok_iff.mp h
    obtain ⟨a, b, rfl, hleast, hmost⟩ := orderedBounds_eq_ok hbounds
    simp [Check.passes, Operator.test, isBetween, hleast, hmost]

/-- A condition asks of a field what its operator asks. -/
theorem conditionOf_holds {c : Option Condition} (h : conditionOf kind op v = .ok c)
    (hv : isNothing v = false) :
    c.map (·.holds stored) =
      if op.setsNothing v then none else some (op.accepts kind v stored) := by
  cases op with
  | is | isNot =>
    obtain ⟨b, hb, rfl⟩ := Except.map_eq_ok_iff.mp h
    cases v <;> cases hb
    rfl
  | eq | gt | gte | lt | lte =>
    obtain ⟨o, ho, rfl⟩ := Except.map_eq_ok_iff.mp h
    rw [if_neg (by simp [Operator.setsNothing, Operator.isPattern, Operator.isRange, hv])]
    refine congrArg some (some_holds (fun w => ?_) (by decide))
    rw [Check.passes, compareStored?_of_coerceSingle ho, Operator.test]
  | neq =>
    obtain ⟨o, ho, rfl⟩ := Except.map_eq_ok_iff.mp h
    rw [if_neg (by simp [Operator.setsNothing, Operator.isPattern, Operator.isRange, hv])]
    refine congrArg some (none_holds (fun w => ?_) rfl)
    rw [Check.passes, compareStored?_of_coerceSingle ho, Operator.test]
  | oneOf =>
    obtain ⟨os, hos, rfl⟩ := Except.map_eq_ok_iff.mp h
    rw [if_neg (by simp [Operator.setsNothing, Operator.isPattern, Operator.isRange, hv])]
    refine congrArg some (some_holds (fun w => ?_) (by decide))
    cases v <;> first | cases hos | exact any_of_coerceItems hos w
  | noneOf =>
    obtain ⟨os, hos, rfl⟩ := Except.map_eq_ok_iff.mp h
    rw [if_neg (by simp [Operator.setsNothing, Operator.isPattern, Operator.isRange, hv])]
    refine congrArg some (none_holds (fun w => ?_) rfl)
    cases v <;> first | cases hos | exact any_of_coerceItems hos w
  | like | iLike =>
    obtain ⟨p, hp, rfl⟩ := Except.map_eq_ok_iff.mp h
    obtain ⟨hnone, hpasses⟩ := patternOf_eq_ok hp
    cases p with
    | none => rw [if_pos (by simp [Operator.setsNothing, Operator.isPattern, ← hnone])]; rfl
    | some q =>
      rw [if_neg (by simp [Operator.setsNothing, Operator.isRange, hv, ← hnone])]
      exact congrArg some (some_holds (hpasses q rfl) (by decide))
  | notLike | notILike =>
    obtain ⟨p, hp, rfl⟩ := Except.map_eq_ok_iff.mp h
    obtain ⟨hnone, hpasses⟩ := patternOf_eq_ok hp
    cases p with
    | none => rw [if_pos (by simp [Operator.setsNothing, Operator.isPattern, ← hnone])]; rfl
    | some q =>
      rw [if_neg (by simp [Operator.setsNothing, Operator.isRange, hv, ← hnone])]
      exact congrArg some (none_holds (hpasses q rfl) rfl)
  | between =>
    obtain ⟨c, hc, rfl⟩ := Except.map_eq_ok_iff.mp h
    obtain ⟨hnone, hpasses⟩ := rangeOf_eq_ok hc
    cases c with
    | none => rw [if_pos (by simp [Operator.setsNothing, Operator.isRange, ← hnone])]; rfl
    | some check =>
      rw [if_neg (by simp [Operator.setsNothing, Operator.isPattern, hv, ← hnone])]
      exact congrArg some (some_holds (hpasses check rfl) (by decide))
  | notBetween =>
    obtain ⟨c, hc, rfl⟩ := Except.map_eq_ok_iff.mp h
    obtain ⟨hnone, hpasses⟩ := rangeOf_eq_ok hc
    cases c with
    | none => rw [if_pos (by simp [Operator.setsNothing, Operator.isRange, ← hnone])]; rfl
    | some check =>
      rw [if_neg (by simp [Operator.setsNothing, Operator.isPattern, hv, ← hnone])]
      exact congrArg some (none_holds (hpasses check rfl) rfl)

def Predicate.verdict (doc : Json) (p : Predicate) : Verdict :=
  if p.isAlways then none else some (p.holds doc)

theorem compileLeaf_verdict {p : Predicate} {field : Path} (h : compileLeaf field op v = .ok p)
    (doc : Json) : p.verdict doc = operatorVerdict doc field op v := by
  unfold compileLeaf at h
  unfold operatorVerdict
  rw [isBlank_eq_isNothing] at h
  cases hv : isNothing v with
  | true =>
    rw [if_pos hv] at h
    cases h
    rw [if_pos (by simp [Operator.setsNothing, hv])]
    rfl
  | false =>
    rw [if_neg (by simp [hv])] at h
    cases hc : conditionOf (fieldKind field.normalize) op v with
    | error e => simp [hc] at h
    | ok c =>
      rw [← conditionOf_holds hc hv]
      cases c <;> simp only [hc, Except.ok.injEq] at h <;> subst h <;> rfl

namespace Verdict

@[simp] theorem said_nil : said [] = [] := rfl

@[simp] theorem said_none_cons (vs : List Verdict) : said (none :: vs) = said vs := rfl

@[simp] theorem said_some_cons (b : Bool) (vs : List Verdict) :
    said (some b :: vs) = b :: said vs := rfl

@[simp] theorem said_append (vs ws : List Verdict) : said (vs ++ ws) = said vs ++ said ws := by
  simp [said]

theorem combine_nil (c : Connective) : combine c [] = none := rfl

theorem combine_singleton (c : Connective) (v : Verdict) : combine c [v] = v := by
  cases v with
  | none => rfl
  | some b => cases c <;> cases b <;> rfl

theorem combine_congr (c : Connective) {vs ws : List Verdict} (h : said vs = said ws) :
    combine c vs = combine c ws := by
  rw [combine, h, combine]

theorem combine_eq_some (c : Connective) {vs : List Verdict} (h : said vs ≠ []) :
    combine c vs = some (match c with
      | .all => (said vs).all id
      | .any => (said vs).any id) := by
  unfold combine
  cases hvs : said vs with
  | nil => exact absurd hvs h
  | cons b bs => cases c <;> rfl

theorem combine_eq_none (c : Connective) {vs : List Verdict} (h : said vs = []) :
    combine c vs = none := by
  rw [combine, h]

theorem combine_all_append (vs ws : List Verdict) :
    combine .all (combine .all vs :: ws) = combine .all (vs ++ ws) := by
  by_cases h : said vs = []
  · exact combine_congr _ (by simp [combine_eq_none _ h, h])
  · rw [combine_eq_some _ h, combine_eq_some _ (by simp), combine_eq_some _ (by simp [h])]
    simp

theorem combine_all_cons (v : Verdict) (vs : List Verdict) :
    combine .all (v :: vs) = combine .all [v, combine .all vs] := by
  by_cases h : said vs = []
  · rw [combine_eq_none _ h]
    exact combine_congr _ (by cases v <;> simp [h])
  · have hvs : said (v :: vs) ≠ [] := by cases v <;> simp [h]
    rw [combine_eq_some .all h, combine_eq_some .all hvs, combine_eq_some _ (by cases v <;> simp)]
    cases v <;> simp

end Verdict

theorem Predicate.eq_always {p : Predicate} (h : p.isAlways = true) : p = .always := by
  cases p <;> first | rfl | simp [isAlways] at h

theorem said_verdict (doc : Json) (ps : List Predicate) :
    Verdict.said (ps.map (·.verdict doc)) = (ps.filter (!·.isAlways)).map (·.holds doc) := by
  induction ps with
  | nil => rfl
  | cons p ps ih => cases hp : p.isAlways <;> simp [Predicate.verdict, hp, ← ih]

theorem Predicate.holdsAll_eq (doc : Json) (ps : List Predicate) :
    holdsAll doc ps = (ps.map (·.holds doc)).all id := by
  induction ps with
  | nil => rfl
  | cons p ps ih => simp [holdsAll, ih]

theorem Predicate.holdsAny_eq (doc : Json) (ps : List Predicate) :
    holdsAny doc ps = (ps.map (·.holds doc)).any id := by
  induction ps with
  | nil => rfl
  | cons p ps ih => simp [holdsAny, ih]

theorem combine_verdict (c : Connective) (ps : List Predicate) (doc : Json) :
    (Predicate.combine c ps).verdict doc = .combine c (ps.map (·.verdict doc)) := by
  have hps := said_verdict doc ps
  have hmem (p : Predicate) (hp : p ∈ ps.filter (!·.isAlways)) : p.isAlways = false := by
    simpa using (List.mem_filter.mp hp).2
  unfold Predicate.combine
  split
  case h_1 hnil => rw [Verdict.combine_eq_none c (by rw [hps, hnil]; rfl)]; rfl
  case h_2 p hone =>
    have hp := hmem p (by simp [hone])
    rw [Verdict.combine_eq_some c (by simp [hps, hone]), hps, hone]
    cases c <;> simp [Predicate.verdict, hp]
  case h_3 qs hnil _ =>
    rw [Verdict.combine_eq_some c (by simpa [hps] using hnil), hps]
    cases c with
    | all => simp only [Predicate.verdict, Predicate.isAlways, Predicate.holds,
        Predicate.holdsAll_eq, Bool.false_eq_true, if_false]
    | any => simp only [Predicate.verdict, Predicate.isAlways, Predicate.holds,
        Predicate.holdsAny_eq, Bool.false_eq_true, if_false]

mutual

def Tree.verdict (doc : Json) : Tree → Verdict
  | leaf field op operand => operatorVerdict doc field op operand
  | node c ts => .combine c (verdicts doc ts)

def Tree.verdicts (doc : Json) : List Tree → List Verdict
  | [] => []
  | t :: ts => verdict doc t :: verdicts doc ts

end

theorem Tree.verdicts_append (doc : Json) (ts us : List Tree) :
    verdicts doc (ts ++ us) = verdicts doc ts ++ verdicts doc us := by
  induction ts with
  | nil => rfl
  | cons t ts ih => simp [verdicts, ih]

mutual

/-- A compiled tree says what the tree says. -/
theorem compile_verdict (doc : Json) :
    ∀ (t : Tree) {p : Predicate}, compile t = .ok p → p.verdict doc = t.verdict doc
  | .leaf _ _ _, _, h => compileLeaf_verdict h doc
  | .node c ts, _, h => by
    obtain ⟨ps, hps, rfl⟩ := Except.map_eq_ok_iff.mp h
    rw [combine_verdict, compileAll_verdicts doc ts hps, Tree.verdict]

theorem compileAll_verdicts (doc : Json) :
    ∀ (ts : List Tree) {ps : List Predicate}, compileAll ts = .ok ps →
      ps.map (·.verdict doc) = Tree.verdicts doc ts
  | [], _, h => by cases h; rfl
  | t :: ts, _, h => by
    obtain ⟨p, hp, h⟩ := Except.bind_eq_ok_iff.mp h
    obtain ⟨ps, hps, h⟩ := Except.bind_eq_ok_iff.mp h
    cases h
    rw [List.map_cons, compile_verdict doc t hp, compileAll_verdicts doc ts hps, Tree.verdicts]

end

end Filter

end Clientele
