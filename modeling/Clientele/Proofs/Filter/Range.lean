import Clientele.Proofs.Filter.Compile
import Clientele.Proofs.Filter.Standing

/-!
A range means the same whichever of its bounds comes first. A value lies in it if it lies between
the first bound and the second one or between the second one and the first one, and this does not
ask which of them is the lower.
-/
set_option autoImplicit false

namespace Clientele.Filter

variable {kind : FieldKind} {a b : Json}

theorem orderedBounds_isOk_iff :
    (∃ bounds, orderedBounds kind (.arr [a, b]) = .ok bounds) ↔
      (∃ o, coerce kind a = .ok o) ∧ (∃ o, coerce kind b = .ok o) ∧ (standing kind b a).isSome := by
  cases ha : coerce kind a with
  | error => simp [orderedBounds, coerceList, coerceItems, ha, bind, Except.bind]
  | ok oa =>
    cases hb : coerce kind b with
    | error => simp [orderedBounds, coerceList, coerceItems, ha, hb, bind, Except.bind]
    | ok ob =>
      rw [← compare?_of_coerce ha hb]
      cases hab : oa.compare? ob with
      | none =>
        simp [orderedBounds, coerceList, coerceItems, ha, hb, hab, bind, Except.bind, pure, Except.pure,
          throw, throwThe, MonadExceptOf.throw]
      | some o =>
        cases o <;> simp [orderedBounds, coerceList, coerceItems, ha, hb, hab, bind, Except.bind, pure,
          Except.pure]

theorem isSome_standing_comm (ha : a.collapse = a) (hb : b.collapse = b)
    (h : (standing kind b a).isSome) : (standing kind a b).isSome := by
  obtain ⟨o, ho⟩ := Option.isSome_iff_exists.mp h
  rw [(isOrder_standing kind).swap ha hb ho]
  rfl

theorem orderedBounds_isOk_comm (ha : a.collapse = a) (hb : b.collapse = b)
    (h : ∃ bounds, orderedBounds kind (.arr [a, b]) = .ok bounds) :
    ∃ bounds, orderedBounds kind (.arr [b, a]) = .ok bounds := by
  obtain ⟨hoa, hob, hab⟩ := orderedBounds_isOk_iff.mp h
  exact orderedBounds_isOk_iff.mpr ⟨hob, hoa, isSome_standing_comm ha hb hab⟩

theorem inOrder_eq (kind : FieldKind) (a b : Json) :
    inOrder kind a b = (a, b) ∨ inOrder kind a b = (b, a) := by
  unfold inOrder
  split <;> simp

theorem inOrder_ordered (ha : a.collapse = a) (hb : b.collapse = b)
    (h : (standing kind b a).isSome) :
    isAtMost (standing kind (inOrder kind a b).2 (inOrder kind a b).1) ∧
      isAtLeast (standing kind (inOrder kind a b).1 (inOrder kind a b).2) := by
  obtain ⟨o, hab⟩ := Option.isSome_iff_exists.mp h
  have hba := (isOrder_standing kind).swap ha hb hab
  cases o <;> simp [inOrder, hab, hba, isAtMost, isAtLeast]

theorem isBetween_of_swapped {lower upper v : Json} (hle : isAtMost (standing kind upper lower))
    (hge : isAtLeast (standing kind lower upper)) (h : isBetween kind (upper, lower) v) :
    isBetween kind (lower, upper) v := by
  rw [isBetween, Bool.and_eq_true] at h ⊢
  have order := isOrder_standing kind
  exact ⟨order.atLeast_trans hge h.1, order.atMost_trans hle h.2⟩

theorem isBetween_inOrder (ha : a.collapse = a) (hb : b.collapse = b)
    (h : (standing kind b a).isSome) (v : Json) :
    isBetween kind (inOrder kind a b) v =
      (isBetween kind (a, b) v || isBetween kind (b, a) v) := by
  obtain ⟨hle, hge⟩ := inOrder_ordered ha hb h
  rw [Bool.eq_iff_iff, Bool.or_eq_true]
  rcases inOrder_eq kind a b with heq | heq
  · rw [heq] at hle hge ⊢
    exact ⟨.inl, fun h => h.elim id (isBetween_of_swapped hle hge)⟩
  · rw [heq] at hle hge ⊢
    exact ⟨.inr, fun h => h.elim (isBetween_of_swapped hle hge) id⟩

theorem bounds_of_rangeOf {check : Check} (h : rangeOf kind (.arr [a, b]) = .ok (some check)) :
    (isBlank a = false ∧ isBlank b = false) ∧ (∃ o, coerce kind a = .ok o) ∧
      (∃ o, coerce kind b = .ok o) ∧ (standing kind b a).isSome := by
  unfold rangeOf at h
  split at h
  case isTrue => cases h
  case isFalse hclosed =>
    obtain ⟨bounds, hbounds, -⟩ := Except.map_eq_ok_iff.mp h
    exact ⟨by simpa [hasBlankBound] using hclosed, orderedBounds_isOk_iff.mp ⟨bounds, hbounds⟩⟩

theorem passes_of_rangeOf (ha : a.collapse = a) (hb : b.collapse = b) {check : Check}
    (h : rangeOf kind (.arr [a, b]) = .ok (some check)) (v : Json) :
    check.passes v = (isBetween kind (a, b) v || isBetween kind (b, a) v) := by
  obtain ⟨-, -, -, hab⟩ := bounds_of_rangeOf h
  rw [(rangeOf_eq_ok h).2 check rfl v]
  exact isBetween_inOrder ha hb hab v

theorem rangeOf_comm (ha : a.collapse = a) (hb : b.collapse = b) :
    (∃ fault fault', rangeOf kind (.arr [a, b]) = .error fault ∧
      rangeOf kind (.arr [b, a]) = .error fault') ∨
    (rangeOf kind (.arr [a, b]) = .ok none ∧ rangeOf kind (.arr [b, a]) = .ok none) ∨
    ∃ check check', rangeOf kind (.arr [a, b]) = .ok (some check) ∧
      rangeOf kind (.arr [b, a]) = .ok (some check') ∧ ∀ v, check.passes v = check'.passes v := by
  have hblank : hasBlankBound (.arr [b, a]) = hasBlankBound (.arr [a, b]) := Bool.or_comm _ _
  cases hopen : hasBlankBound (.arr [a, b]) with
  | true =>
    rw [hopen] at hblank
    exact .inr (.inl ⟨if_pos hopen, if_pos hblank⟩)
  | false =>
    rw [hopen] at hblank
    have hrange : rangeOf kind (.arr [a, b]) = (orderedBounds kind (.arr [a, b])).map
        fun bounds => some (.within bounds.1 bounds.2) := if_neg (by simp [hopen])
    have hrange' : rangeOf kind (.arr [b, a]) = (orderedBounds kind (.arr [b, a])).map
        fun bounds => some (.within bounds.1 bounds.2) := if_neg (by simp [hblank])
    cases hbounds : orderedBounds kind (.arr [a, b]) with
    | error fault =>
      cases hbounds' : orderedBounds kind (.arr [b, a]) with
      | error fault' =>
        -- not for the same reason: it may be the other bound that is found first
        rw [hbounds] at hrange
        rw [hbounds'] at hrange'
        exact .inl ⟨fault, fault', hrange, hrange'⟩
      | ok bounds =>
        obtain ⟨bounds', h⟩ := orderedBounds_isOk_comm hb ha ⟨bounds, hbounds'⟩
        simp [hbounds] at h
    | ok bounds =>
      obtain ⟨bounds', hbounds'⟩ := orderedBounds_isOk_comm ha hb ⟨bounds, hbounds⟩
      rw [hbounds] at hrange
      rw [hbounds'] at hrange'
      refine .inr (.inr ⟨_, _, hrange, hrange', fun v => ?_⟩)
      rw [passes_of_rangeOf ha hb hrange, passes_of_rangeOf hb ha hrange', Bool.or_comm]

/-- Leaves that come to the same: both are refused, or both set no condition, or they set conditions
on one path that the same documents meet. -/
inductive Equivalent : Except Error Predicate → Except Error Predicate → Prop
  | refused (e e' : Error) : Equivalent (.error e) (.error e')
  | unconditional : Equivalent (.ok .always) (.ok .always)
  | conditions {path : Path} {c d : Condition}
    (alike : ∀ doc, (Predicate.field path c).holds doc = (Predicate.field path d).holds doc) :
    Equivalent (.ok (.field path c)) (.ok (.field path d))

theorem compileLeaf_comm (ha : a.collapse = a) (hb : b.collapse = b) {op : Operator}
    {condition : Check → Condition}
    (hop : ∀ kind v, conditionOf kind op v = (rangeOf kind v).map (Option.map condition))
    (hcongr : ∀ {check check' : Check}, (∀ v, check.passes v = check'.passes v) →
      ∀ stored, (condition check).holds stored = (condition check').holds stored) (field : Path) :
    Equivalent (compileLeaf field op (.arr [a, b])) (compileLeaf field op (.arr [b, a])) := by
  simp only [compileLeaf, isBlank, Bool.false_eq_true, if_false, hop]
  rcases rangeOf_comm ha hb with ⟨fault, fault', h, h'⟩ | ⟨h, h'⟩ | ⟨check, check', h, h', halike⟩
  · rw [h, h']
    exact .refused _ _
  · rw [h, h']
    exact .unconditional
  · rw [h, h']
    exact .conditions fun doc => hcongr halike (doc.at? field.normalize)

/-- At least the one value and at most the other, or at least the other and at most the one. -/
def eitherWay (field : Path) (a b : Json) : Tree :=
  .node .any [.node .all [.leaf field .gte a, .leaf field .lte b],
    .node .all [.leaf field .gte b, .leaf field .lte a]]

/-- A range with two bounds, in the form in which it does not matter which of them is the lower. -/
structure IsRange (field : Path) (a b : Json) (p : Predicate) : Prop where
  between : ∃ lower upper, (lower, upper) ∈ [(a, b), (b, a)] ∧
    isAtMost (standing (fieldKind field.normalize) upper lower) ∧
    ∀ doc, p.holds doc ↔ ∃ v ∈ candidates (doc.at? field.normalize),
      isAtLeast (standing (fieldKind field.normalize) lower v) ∧
        isAtMost (standing (fieldKind field.normalize) upper v)
  single : ∃ q, compile (eitherWay field a b) = .ok q ∧
    ∀ doc, (∀ xs, doc.at? field.normalize ≠ some (.arr xs)) → p.holds doc = q.holds doc

theorem coerceSingle_of_coerce {v : Json} {o : Operand} (h : coerce kind v = .ok o) :
    coerceSingle kind v = .ok o := by
  cases v with
  | arr vs =>
    cases kind with
    | identifier | date => cases h
    | plain => exact h
  | _ => exact h

theorem compileLeaf_eq_field {field : Path} {op : Operator} {v : Json} {c : Condition}
    (hv : isBlank v = false) (h : conditionOf (fieldKind field.normalize) op v = .ok (some c)) :
    compileLeaf field op v = .ok (.field field.normalize c) := by
  simp only [compileLeaf, hv, Bool.false_eq_true, if_false, h]

def eitherWayPredicate (path : Path) (oa ob : Operand) : Predicate :=
  .any [.all [.field path (.some (.gte oa)), .field path (.some (.lte ob))],
    .all [.field path (.some (.gte ob)), .field path (.some (.lte oa))]]

variable {field : Path} {oa ob : Operand}

theorem compile_eitherWay (ha : isBlank a = false) (hb : isBlank b = false)
    (hoa : coerce (fieldKind field.normalize) a = .ok oa)
    (hob : coerce (fieldKind field.normalize) b = .ok ob) :
    compile (eitherWay field a b) = .ok (eitherWayPredicate field.normalize oa ob) := by
  have hgte {v : Json} {o : Operand} (hv : isBlank v = false)
      (ho : coerce (fieldKind field.normalize) v = .ok o) :
      compileLeaf field .gte v = .ok (.field field.normalize (.some (.gte o))) :=
    compileLeaf_eq_field hv (by rw [conditionOf, coerceSingle_of_coerce ho]; rfl)
  have hlte {v : Json} {o : Operand} (hv : isBlank v = false)
      (ho : coerce (fieldKind field.normalize) v = .ok o) :
      compileLeaf field .lte v = .ok (.field field.normalize (.some (.lte o))) :=
    compileLeaf_eq_field hv (by rw [conditionOf, coerceSingle_of_coerce ho]; rfl)
  simp only [eitherWay, compile, compileAll, hgte ha hoa, hgte hb hob, hlte ha hoa, hlte hb hob]
  rfl

theorem candidates_of_not_list {stored : Option Json} (h : ∀ xs, stored ≠ some (.arr xs)) :
    candidates stored = stored.toList := by
  match stored with
  | none => rfl
  | some (.arr xs) => exact absurd rfl (h xs)
  | some .null | some (.bool _) | some (.num _) | some (.str _) | some (.obj _) => rfl

theorem holds_eitherWayPredicate {doc : Json}
    (hdoc : ∀ xs, doc.at? field.normalize ≠ some (.arr xs))
    (hoa : coerce (fieldKind field.normalize) a = .ok oa)
    (hob : coerce (fieldKind field.normalize) b = .ok ob) :
    (eitherWayPredicate field.normalize oa ob).holds doc =
      (candidates (doc.at? field.normalize)).any fun v =>
        isBetween (fieldKind field.normalize) (a, b) v ||
          isBetween (fieldKind field.normalize) (b, a) v := by
  simp only [eitherWayPredicate, Predicate.holds, Predicate.holdsAny, Predicate.holdsAll,
    Condition.holds, candidates_of_not_list hdoc]
  cases doc.at? field.normalize with
  | none => rfl
  | some v =>
    simp [Check.passes, isBetween, compareStored?_of_coerce hoa v, compareStored?_of_coerce hob v]

theorem isRange_of_compileLeaf (ha : a.collapse = a) (hb : b.collapse = b) {p : Predicate}
    (h : compileLeaf field .between (.arr [a, b]) = .ok p) (hcondition : p.isAlways = false) :
    IsRange field a b p := by
  simp only [compileLeaf, isBlank, Bool.false_eq_true, if_false, conditionOf] at h
  rcases hrange : rangeOf (fieldKind field.normalize) (.arr [a, b]) with fault | _ | check
  · simp [hrange, Except.map] at h
  · simp only [hrange, Except.map, Option.map_none, Except.ok.injEq] at h
    simp [← h, Predicate.isAlways] at hcondition
  · simp only [hrange, Except.map, Option.map_some, Except.ok.injEq] at h
    subst h
    obtain ⟨⟨hblank, hblank'⟩, ⟨oa, hoa⟩, ⟨ob, hob⟩, hab⟩ := bounds_of_rangeOf hrange
    have hlies (v : Json) : check.passes v = isBetween (fieldKind field.normalize)
        (inOrder (fieldKind field.normalize) a b) v := (rangeOf_eq_ok hrange).2 check rfl v
    have hpasses := passes_of_rangeOf ha hb hrange
    constructor
    case between =>
      refine ⟨_, _, ?_, (inOrder_ordered ha hb hab).1, fun doc => ?_⟩
      · rcases inOrder_eq (fieldKind field.normalize) a b with heq | heq <;> simp [heq]
      · simp only [Predicate.holds, Condition.holds, List.any_eq_true, hlies, isBetween,
          Bool.and_eq_true]
    case single =>
      refine ⟨_, compile_eitherWay hblank hblank' hoa hob, fun doc hdoc => ?_⟩
      rw [holds_eitherWayPredicate hdoc hoa hob, Predicate.holds, Condition.holds, funext hpasses]

/-- A range means the same whichever of its bounds comes first, and so does what lies outside of it.
The bounds are values as they are read, in which no object has a key twice. -/
theorem between_comm (ha : a.collapse = a) (hb : b.collapse = b) (field : Path) :
    Equivalent (compileLeaf field .between (.arr [a, b])) (compileLeaf field .between (.arr [b, a])) ∧
    Equivalent (compileLeaf field .notBetween (.arr [a, b]))
      (compileLeaf field .notBetween (.arr [b, a])) ∧
    ∀ p, compileLeaf field .between (.arr [a, b]) = .ok p → p.isAlways = false →
      IsRange field a b p := by
  refine ⟨compileLeaf_comm ha hb (fun _ _ => rfl) (fun h stored => ?_) field,
    compileLeaf_comm ha hb (fun _ _ => rfl) (fun h stored => ?_) field,
    fun p hp hcondition => isRange_of_compileLeaf ha hb hp hcondition⟩
  · simp only [Condition.holds, funext h]
  · simp only [Condition.holds, funext h]

/-- Visits in February: the bounds are a day and, before it, milliseconds of an earlier day. Visits
before and after that month do not make up for one in it. -/
theorem between_comm_dates :
    let field : Path := ⟨["visits", "date"]⟩
    let first : Json := .str "2024-03-01"
    let second : Json := .ofNat 1706745600000
    let visits (days : List String) : Json :=
      .obj [("visits", .arr (days.map fun day => .obj [("date", .str day)]))]
    let one : Json := .obj [("visits", .obj [("date", .str "2024-02-10T08:30:00Z")])]
    let docs : List Json :=
      [visits ["2024-02-10", "2025-01-01"], visits ["2024-01-31", "2024-03-02"], one, visits []]
    Equivalent (compileLeaf field .between (.arr [first, second]))
        (compileLeaf field .between (.arr [second, first])) ∧
      Equivalent (compileLeaf field .notBetween (.arr [first, second]))
        (compileLeaf field .notBetween (.arr [second, first])) ∧
      ∃ p, compileLeaf field .between (.arr [first, second]) = .ok p ∧ IsRange field first second p ∧
        docs.map (p.holds ·) = [true, false, true, false] := by
  intro field first second visits one docs
  obtain ⟨hbetween, houtside, hrange⟩ :=
    @between_comm first second (by decide +kernel) (by decide +kernel) field
  have hview : (compileLeaf field .between (.arr [first, second])).toOption.map
      (fun p => (p.isAlways, docs.map (p.holds ·))) = some (false, [true, false, true, false]) := by
    decide +kernel
  refine ⟨hbetween, houtside, ?_⟩
  cases hp : compileLeaf field .between (.arr [first, second]) with
  | error e => simp [hp, Except.toOption] at hview
  | ok p =>
    simp only [hp, Except.toOption, Option.map_some, Option.some.injEq, Prod.mk.injEq] at hview
    exact ⟨p, rfl, hrange p hp hview.1, hview.2⟩

end Clientele.Filter
