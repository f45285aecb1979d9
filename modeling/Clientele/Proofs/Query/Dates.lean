import Clientele.Query.Request
import Clientele.Proofs.Filter.Range
import Clientele.Proofs.Time.Chronology

/-!
Dates in sorts and in filters. A filter reads the dates of documents and compares instants; a sort
compares the texts as they are stored. The two agree where the stamps are spelled alike, as those of
the records are. Between offsets, or with and without a fraction, they may contradict each other.
-/
set_option autoImplicit false

namespace Clientele.Query

open Clientele.Filter Clientele.Time

structure HasStamp (doc : Json) (path : Path) (s : String) (x : Instant) : Prop where
  stored : doc.at? path = some (.str s)
  read : strict? s = some x

/-- The comparisons that a filter can make, and what they ask of an order. -/
def comparisons : List (Operator × (Ordering → Bool)) :=
  [(.gt, (· == .gt)), (.gte, Ordering.isGE), (.lt, (· == .lt)), (.lte, Ordering.isLE)]

def compareAscending (field : Path) : Json → Json → Ordering :=
  compareBy (SortRequest.compile [⟨field, .ascending⟩])

theorem compareAscending_eq (field : Path) (a b : Json) :
    compareAscending field a b =
      Json.compareOptional (a.at? field.normalize) (b.at? field.normalize) := by
  simp [compareAscending, SortRequest.compile, firstOfPath, compareBy, SortKey.compare,
    SortKey.normalize, Direction.apply]

variable {field : Path} {a : Json} {s t u : String} {x y z : Instant}

theorem coerce_stamp (ht : strict? t = some y) : coerce .date (.str t) = .ok (.date y) := by
  simp [coerce, dateOf?, ht]

theorem isBlank_stamp (ht : strict? t = some y) : isBlank (.str t) = false := by
  by_contra hblank
  obtain rfl : t = "" := by simpa [isBlank] using hblank
  cases ht

theorem candidates_stamp (ha : HasStamp a field.normalize s x) :
    candidates (a.at? field.normalize) = [.str s] := by
  rw [ha.stored]
  rfl

theorem standing_stamp (hx : strict? s = some x) (ht : strict? t = some y) :
    standing .date (.str t) (.str s) = some (x.compare y) := by
  simp [standing, dateOf?, hx, ht]

theorem filter_comparison (hkind : fieldKind field.normalize = .date)
    (ha : HasStamp a field.normalize s x) (ht : strict? t = some y) :
    ∀ c ∈ comparisons, ∃ p, compileLeaf field c.1 (.str t) = .ok p ∧
      p.holds a = c.2 (x.compare y) := by
  have hfilter {op : Operator} (check : Operand → Check) (test : Ordering → Bool)
      (hop : conditionOf .date op (.str t) =
        (coerceSingle .date (.str t)).map fun o => some (.some (check o)))
      (htest : (check (.date y)).passes (.str s) = test (x.compare y)) :
      ∃ p, compileLeaf field op (.str t) = .ok p ∧ p.holds a = test (x.compare y) := by
    refine ⟨_, compileLeaf_eq_field (isBlank_stamp ht) (c := .some (check (.date y))) ?_, ?_⟩
    · rw [hkind, hop, coerceSingle_of_coerce (coerce_stamp ht)]
      rfl
    · rw [Predicate.holds, Condition.holds, candidates_stamp ha, List.any_cons, List.any_nil,
        Bool.or_false, htest]
  have hstored : (Operand.date y).compareStored? (.str s) = some (x.compare y) := by
    rw [compareStored?_of_coerce (coerce_stamp ht), standing_stamp ha.read ht]
  simp only [comparisons, List.forall_mem_cons, List.not_mem_nil, false_imp_iff, implies_true,
    and_true]
  refine ⟨hfilter .gt (· == .gt) rfl ?_, hfilter .gte Ordering.isGE rfl ?_,
    hfilter .lt (· == .lt) rfl ?_, hfilter .lte Ordering.isLE rfl ?_⟩
  all_goals
    rw [Check.passes, hstored]
    cases x.compare y <;> rfl

theorem filter_range (hkind : fieldKind field.normalize = .date)
    (ha : HasStamp a field.normalize s x) (ht : strict? t = some y) (hu : strict? u = some z) :
    ∃ p, compileLeaf field .between (.arr [.str t, .str u]) = .ok p ∧
      (p.holds a ↔ (x.compare y).isGE ∧ (x.compare z).isLE ∨
        (x.compare z).isGE ∧ (x.compare y).isLE) := by
  have hclosed : hasBlankBound (.arr [.str t, .str u]) = false := by
    rw [hasBlankBound, isBlank_stamp ht, isBlank_stamp hu]
    rfl
  obtain ⟨bounds, hbounds⟩ := orderedBounds_isOk_iff.mpr
    ⟨⟨_, coerce_stamp ht⟩, ⟨_, coerce_stamp hu⟩, by rw [standing_stamp ht hu]; rfl⟩
  have hrange : rangeOf .date (.arr [.str t, .str u]) = .ok (some (.within bounds.1 bounds.2)) := by
    rw [rangeOf, if_neg (by simp [hclosed]), hbounds]
    rfl
  refine ⟨_, compileLeaf_eq_field rfl (c := .some (.within bounds.1 bounds.2)) ?_, ?_⟩
  · rw [hkind, conditionOf, hrange]
    rfl
  · rw [Predicate.holds, Condition.holds, candidates_stamp ha, List.any_cons, List.any_nil,
      Bool.or_false, passes_of_rangeOf rfl rfl hrange, isBetween, isBetween,
      standing_stamp ha.read ht, standing_stamp ha.read hu]
    cases x.compare y <;> cases x.compare z <;> decide

/-- Filters and sorts that ask for a date. Filters compare instants, however they are spelled; sorts
compare texts. A sort is therefore in the order of the instants, and in accord with every comparison
that a filter makes, where the texts are spelled alike and have at most nine places. The stamps of
the records are spelled so. -/
theorem dates_in_order {b : Json} (hkind : fieldKind field.normalize = .date)
    (ha : HasStamp a field.normalize s x) (hb : HasStamp b field.normalize t y) :
    compareAscending field a b = Ord.compare s t ∧
    (∀ c ∈ comparisons, ∃ p, compileLeaf field c.1 (.str t) = .ok p ∧
      p.holds a = c.2 (x.compare y)) ∧
    (∀ u z, strict? u = some z → ∃ p, compileLeaf field .between (.arr [.str t, .str u]) = .ok p ∧
      (p.holds a ↔ (x.compare y).isGE ∧ (x.compare z).isLE ∨
        (x.compare z).isGE ∧ (x.compare y).isLE)) ∧
    (spelling s = spelling t → (spelling s).fraction ≤ 10 →
      compareAscending field a b = x.compare y) ∧
    (x.IsRecorded → y.IsRecorded → s = x.millis → t = y.millis →
      compareAscending field a b = x.compare y) := by
  have hsort : compareAscending field a b = Ord.compare s t := by
    rw [compareAscending_eq, ha.stored, hb.stored]
    rfl
  refine ⟨hsort, filter_comparison hkind ha hb.read,
    fun u z hu => filter_range hkind ha hb.read hu, fun hspelling hplaces => ?_, ?_⟩
  · rw [hsort, compare_of_spelling ha.read hb.read hspelling hplaces]
  · rintro hx hy rfl rfl
    rw [hsort, Instant.compare_millis hx hy]

/-- Half past eleven in the evening at an offset of two hours, half a second and seven tenths after.
-/
theorem dates_in_order_evening :
    let due : Path := ⟨["dueDate"]⟩
    let doc (s : String) : Json := .obj [("dueDate", .str s)]
    let half : String := "2024-05-01T23:30:00.5+02:00"
    let later : String := "2024-05-01T23:30:00.7+02:00"
    let x : Instant := ⟨19844, 77400, 500000000⟩
    let y : Instant := ⟨19844, 77400, 700000000⟩
    fieldKind due.normalize = .date ∧ HasStamp (doc half) due.normalize half x ∧
      HasStamp (doc later) due.normalize later y ∧ spelling half = spelling later ∧
      compareAscending due (doc half) (doc later) = x.compare y ∧ x.compare y = .lt := by
  intro due doc half later x y
  have hkind : fieldKind due.normalize = .date := by decide +kernel
  have hhalf : HasStamp (doc half) due.normalize half x := ⟨by decide +kernel, by decide +kernel⟩
  have hlater : HasStamp (doc later) due.normalize later y := ⟨by decide +kernel, by decide +kernel⟩
  have hspelling : spelling half = spelling later := by decide +kernel
  refine ⟨hkind, hhalf, hlater, hspelling, ?_, by decide +kernel⟩
  exact (dates_in_order hkind hhalf hlater).2.2.2.1 hspelling (by decide +kernel)

/-- Ten o'clock at an offset of two hours is earlier than nine o'clock in universal time, and half a
second is later than none; as texts they are the other way around. -/
theorem dates_out_of_order :
    let due : Path := ⟨["dueDate"]⟩
    let doc (s : String) : Json := .obj [("dueDate", .str s)]
    let atNine : Instant := ⟨19844, 32400, 0⟩
    let atEight : Instant := ⟨19844, 28800, 0⟩
    let atTen : Instant := ⟨19844, 36000, 0⟩
    let afterTen : Instant := ⟨19844, 36000, 500000000⟩
    fieldKind due.normalize = .date ∧
      (HasStamp (doc "2024-05-01T09:00:00Z") due.normalize "2024-05-01T09:00:00Z" atNine ∧
        HasStamp (doc "2024-05-01T10:00:00+02:00") due.normalize "2024-05-01T10:00:00+02:00" atEight ∧
        compareAscending due (doc "2024-05-01T09:00:00Z") (doc "2024-05-01T10:00:00+02:00") = .lt ∧
        atNine.compare atEight = .gt) ∧
      HasStamp (doc "2024-05-01T10:00:00.500Z") due.normalize "2024-05-01T10:00:00.500Z" afterTen ∧
        HasStamp (doc "2024-05-01T10:00:00Z") due.normalize "2024-05-01T10:00:00Z" atTen ∧
        compareAscending due (doc "2024-05-01T10:00:00.500Z") (doc "2024-05-01T10:00:00Z") = .lt ∧
        afterTen.compare atTen = .gt := by
  intro due doc atNine atEight atTen afterTen
  refine ⟨?_, ⟨⟨?_, ?_⟩, ⟨?_, ?_⟩, ?_, ?_⟩, ⟨?_, ?_⟩, ⟨?_, ?_⟩, ?_, ?_⟩ <;> decide +kernel

end Clientele.Query
