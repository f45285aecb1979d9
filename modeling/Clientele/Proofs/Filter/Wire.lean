import Clientele.Proofs.Filter.Compile

/-!
A filter that is read and compiled says of every document what it says as it was sent. Under either
policy the predicate holds of the documents that do not fail the filter, and it is the one that
always holds just where the filter sets no condition.
-/
set_option autoImplicit false

namespace Clientele.Filter

namespace Reading

variable {α β : Type}

theorem outcome_bind_eq_ok_iff {r : Reading α} {f : α → Reading β} {b : β} :
    (r.bind f).outcome = .ok b ↔ ∃ a, r.outcome = .ok a ∧ (f a).outcome = .ok b := by
  rw [outcome_bind]
  exact Except.bind_eq_ok_iff

theorem outcome_map_eq_ok_iff {r : Reading α} {f : α → β} {b : β} :
    (r.map f).outcome = .ok b ↔ ∃ a, r.outcome = .ok a ∧ f a = b :=
  Except.map_eq_ok_iff

end Reading

variable {policy : Policy}

theorem unknownOperator_eq_ok {field : Path} {name : String} {ts : List Tree}
    (h : (unknownOperator policy field name).outcome = .ok ts) : ts = [] := by
  cases policy <;> cases h
  rfl

theorem combine_all_verdicts_append (doc : Json) (ts us : List Tree) {v : Verdict}
    {vs : List Verdict} (ht : .combine .all (Tree.verdicts doc ts) = v)
    (hu : .combine .all (Tree.verdicts doc us) = Verdict.combine .all vs) :
    .combine .all (Tree.verdicts doc (ts ++ us)) = Verdict.combine .all (v :: vs) := by
  rw [Tree.verdicts_append, ← Verdict.combine_all_append, ht, Verdict.combine_all_cons, hu,
    ← Verdict.combine_all_cons]

mutual

theorem readField_verdict (doc : Json) :
    ∀ (field : Path) (v : Json) {ts : List Tree}, (readField policy field v).outcome = .ok ts →
      .combine .all (Tree.verdicts doc ts) = fieldVerdict doc field v
  | field, .obj entries, _, h => by
    rw [readField] at h
    rw [readOperators_verdict doc field entries h, fieldVerdict]
  | _, .null, _, h | _, .bool _, _, h | _, .num _, _, h | _, .str _, _, h | _, .arr _, _, h => by
    simp [readField, Reading.fail] at h

theorem readOperators_verdict (doc : Json) :
    ∀ (field : Path) (entries : List (String × Json)) {ts : List Tree},
      (readOperators policy field entries).outcome = .ok ts →
      .combine .all (Tree.verdicts doc ts) =
        Verdict.combine .all (operatorVerdicts doc field entries)
  | _, [], _, h => by
    simp only [readOperators, Reading.pure, Except.ok.injEq] at h
    subst h
    simp [operatorVerdicts, Tree.verdicts]
  | field, (key, .obj entries) :: rest, _, h => by
    rw [readOperators] at h
    obtain ⟨ts, hts, h⟩ := Reading.outcome_bind_eq_ok_iff.mp h
    obtain ⟨us, hus, rfl⟩ := Reading.outcome_map_eq_ok_iff.mp h
    rw [operatorVerdicts]
    refine combine_all_verdicts_append doc ts us ?_ (readOperators_verdict doc field rest hus)
    cases hop : Operator.ofName? key with
    | some op =>
      simp only [hop, Reading.pure, Except.ok.injEq] at hts
      subst hts
      exact Verdict.combine_singleton _ _
    | none =>
      simp only [hop] at hts
      exact (readOperators_verdict doc _ entries hts).trans (by rw [fieldVerdict])
  | field, (key, .null) :: rest, _, h | field, (key, .bool _) :: rest, _, h
  | field, (key, .num _) :: rest, _, h | field, (key, .str _) :: rest, _, h
  | field, (key, .arr _) :: rest, _, h => by
    simp only [readOperators] at h
    obtain ⟨ts, hts, h⟩ := Reading.outcome_bind_eq_ok_iff.mp h
    obtain ⟨us, hus, rfl⟩ := Reading.outcome_map_eq_ok_iff.mp h
    rw [operatorVerdicts]
    refine combine_all_verdicts_append doc ts us ?_ (readOperators_verdict doc field rest hus)
    cases hop : Operator.ofName? key with
    | some op =>
      simp only [hop, Reading.pure, Except.ok.injEq] at hts
      subst hts
      exact Verdict.combine_singleton _ _
    | none =>
      simp only [hop] at hts
      rw [unknownOperator_eq_ok hts]
      simp [Tree.verdicts, fieldVerdict, Verdict.combine_nil]

end

mutual

/-- A filter that is read says what it said when it was sent. -/
theorem read_verdict (doc : Json) :
    ∀ (v : Json) {t : Option Tree}, (read policy v).outcome = .ok t →
      t.bind (·.verdict doc) = verdict doc v
  | .null, _, h => by
    simp only [read, Reading.pure, Except.ok.injEq] at h
    subst h
    simp [verdict]
  | .obj entries, _, h => by
    rw [read] at h
    obtain ⟨ts, hts, rfl⟩ := Reading.outcome_map_eq_ok_iff.mp h
    rw [verdict, ← readEntries_verdict doc entries hts]
    match ts with
    | [] => rfl
    | [t] => exact (Verdict.combine_singleton _ _).symm
    | t :: u :: ts => rfl
  | .bool _, _, h | .num _, _, h | .str _, _, h | .arr _, _, h => by
    simp [read, Reading.fail] at h

theorem readEntries_verdict (doc : Json) :
    ∀ (entries : List (String × Json)) {ts : List Tree},
      (readEntries policy entries).outcome = .ok ts →
      .combine .all (Tree.verdicts doc ts) = Verdict.combine .all (entryVerdicts doc entries)
  | [], _, h => by
    simp only [readEntries, Reading.pure, Except.ok.injEq] at h
    subst h
    simp [entryVerdicts, Tree.verdicts]
  | (key, v) :: rest, _, h => by
    rw [readEntries] at h
    obtain ⟨ts, hts, h⟩ := Reading.outcome_bind_eq_ok_iff.mp h
    obtain ⟨us, hus, rfl⟩ := Reading.outcome_map_eq_ok_iff.mp h
    rw [entryVerdicts]
    refine combine_all_verdicts_append doc ts us ?_ (readEntries_verdict doc rest hus)
    cases hc : Connective.ofName? key with
    | none =>
      simp only [hc] at hts
      exact readField_verdict doc _ v hts
    | some c =>
      simp only [hc] at hts
      obtain ⟨us, hus, rfl⟩ := Reading.outcome_map_eq_ok_iff.mp hts
      refine Eq.trans ?_ (readList_verdict doc c v hus)
      cases us with
      | nil => rfl
      | cons u us => exact Verdict.combine_singleton _ _

theorem readList_verdict (doc : Json) (c : Connective) :
    ∀ (v : Json) {ts : List Tree}, (readList policy c v).outcome = .ok ts →
      .combine c (Tree.verdicts doc ts) = listVerdict doc c v
  | .arr items, _, h => by
    rw [readList] at h
    rw [listVerdict]
    exact Verdict.combine_congr c (readItems_said doc items h)
  | .null, _, h | .bool _, _, h | .num _, _, h | .str _, _, h | .obj _, _, h => by
    simp [readList, Reading.fail] at h

theorem readItems_said (doc : Json) :
    ∀ (items : List Json) {ts : List Tree}, (readItems policy items).outcome = .ok ts →
      Verdict.said (Tree.verdicts doc ts) = Verdict.said (itemVerdicts doc items)
  | [], _, h => by
    simp only [readItems, Reading.pure, Except.ok.injEq] at h
    subst h
    simp [itemVerdicts, Tree.verdicts]
  | v :: vs, _, h => by
    rw [readItems] at h
    obtain ⟨t, ht, h⟩ := Reading.outcome_bind_eq_ok_iff.mp h
    obtain ⟨us, hus, rfl⟩ := Reading.outcome_map_eq_ok_iff.mp h
    rw [Tree.verdicts_append, Verdict.said_append, readItems_said doc vs hus, itemVerdicts,
      ← read_verdict doc v ht]
    cases t with
    | none => rfl
    | some t => cases ht : t.verdict doc <;> simp [Tree.verdicts, ht]

end

/-- A filter admits the documents that do not fail it. -/
theorem holds_iff_verdict {v : Json} {t : Option Tree} {p : Predicate}
    (hread : (read policy v).outcome = .ok t) (hcompile : compileOptional t = .ok p) (doc : Json) :
    (p.isAlways = true ↔ verdict doc v = none) ∧
      (p.holds doc = true ↔ verdict doc v ≠ some false) := by
  have hverdict : p.verdict doc = verdict doc v := by
    rw [← read_verdict doc v hread]
    cases t with
    | none => cases hcompile; rfl
    | some t => exact compile_verdict doc t hcompile
  rw [← hverdict]
  cases hp : p.isAlways with
  | true =>
    rw [Predicate.eq_always hp]
    simp [Predicate.verdict, Predicate.isAlways, Predicate.holds]
  | false => simp [Predicate.verdict, hp]

theorem holds_iff_verdict_tags :
    let v : Json := .obj [("or", .arr [.obj [("name", .obj [("iLike", .str "%%")])],
      .obj [("tags", .obj [("in", .arr [.str "a"]), ("near", .str "b")])]])]
    let doc : Json := .obj [("tags", .arr [.str "c", .str "a"])]
    let t : Tree := .node .any [.leaf ⟨["name"]⟩ .iLike (.str "%%"),
      .leaf ⟨["tags"]⟩ .oneOf (.arr [.str "a"])]
    let p : Predicate := .field ⟨["tags"]⟩ (.some (.oneOf [.json (.str "a")]))
    (read .lenient v).outcome = .ok (some t) ∧ compileOptional (some t) = .ok p ∧
      verdict doc v ≠ none ∧ p.holds doc = true ∧ verdict doc v ≠ some false := by
  intro v doc t p
  have hnear : Operator.ofName? "near" = none := rfl
  have hread : (read .lenient v).outcome = .ok (some t) := by
    simp only [v, read, readEntries, readList, readItems, readField, readOperators, hnear]
    rfl
  have hcompile : compileOptional (some t) = .ok p := rfl
  have hholds : p.holds doc = true := rfl
  obtain ⟨halways, hiff⟩ := holds_iff_verdict hread hcompile doc
  have hset : verdict doc v ≠ none := by
    intro h
    cases halways.mpr h
  exact ⟨hread, hcompile, hset, hholds, hiff.mp hholds⟩

end Clientele.Filter
