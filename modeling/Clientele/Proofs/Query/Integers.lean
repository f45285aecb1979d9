import Clientele.Proofs.Decimal.Rounding
import Clientele.Proofs.Filter.Range
import Clientele.Proofs.Query.Lookup

/-!
Integers in comparisons. Orders, filters and joins see an integer rounded to its leading 53 bits.
They never turn two integers around, but two that are rounded to one are alike to them, so equality
is told only between integers one of which is below 2^53, or which are far enough from each other.
-/
set_option autoImplicit false

namespace Clientele

namespace Whole

/-- What a comparison sees of an integer. -/
def seen (n : Whole) : Int := Decimal.nearest n.val

variable {m n : Whole}

theorem natAbs_lt (n : Whole) : n.val.natAbs < 2 ^ 64 := by
  have hlower := n.lower
  have hupper := n.upper
  omega

theorem eq_of_val_eq (h : m.val = n.val) : m = n := by
  obtain ⟨m, _, _⟩ := m
  obtain ⟨n, _, _⟩ := n
  obtain rfl : m = n := h
  rfl

theorem seen_of_isExact (h : Decimal.IsExact n.val.natAbs) : n.seen = n.val :=
  Decimal.nearest_of_isExact h

theorem val_inj : m.val = n.val ↔ m = n := ⟨eq_of_val_eq, congrArg val⟩

theorem seen_le_seen (h : m.val ≤ n.val) : m.seen ≤ n.seen := Decimal.nearest_mono h

/-- Two integers that a comparison does not take for each other unless they are the same. -/
def ToldApart (m n : Whole) : Prop := m = n ∨ m.seen ≠ n.seen

theorem ToldApart.seen_eq_iff (h : ToldApart m n) : m.seen = n.seen ↔ m.val = n.val := by
  rw [val_inj]
  exact ⟨fun heq => h.resolve_right fun hne => hne heq, congrArg seen⟩

theorem ToldApart.seen_le_iff (h : ToldApart m n) : m.seen ≤ n.seen ↔ m.val ≤ n.val := by
  refine ⟨fun hle => not_lt.mp fun hlt => ?_, seen_le_seen⟩
  have heq := hle.antisymm (seen_le_seen hlt.le)
  exact hlt.ne' (h.seen_eq_iff.mp heq)

theorem ToldApart.symm (h : ToldApart m n) : ToldApart n m := h.imp Eq.symm Ne.symm

theorem ToldApart.seen_lt_iff (h : ToldApart m n) : m.seen < n.seen ↔ m.val < n.val :=
  lt_iff_lt_of_le_iff_le h.symm.seen_le_iff

theorem compare_seen_eq_iff :
    Ord.compare m.seen n.seen = Ord.compare m.val n.val ↔ ToldApart m n := by
  rcases lt_trichotomy m.val n.val with hlt | heq | hgt
  · have hne : m ≠ n := fun h => absurd (congrArg val h) hlt.ne
    rw [compare_lt_iff_lt.mpr hlt, compare_lt_iff_lt, lt_iff_le_and_ne, ToldApart, or_iff_right hne]
    exact and_iff_right (seen_le_seen hlt.le)
  · obtain rfl := eq_of_val_eq heq
    rw [compare_eq_iff_eq.mpr rfl, compare_eq_iff_eq.mpr rfl]
    exact iff_of_true rfl (.inl rfl)
  · have hne : m ≠ n := fun h => absurd (congrArg val h) hgt.ne'
    rw [compare_gt_iff_gt.mpr hgt, compare_gt_iff_gt, lt_iff_le_and_ne, ToldApart, or_iff_right hne,
      ne_comm]
    exact and_iff_right (seen_le_seen hgt.le)

theorem le_natAbs_of_seen_eq (h : m.seen = n.seen) (hne : m ≠ n) : 2 ^ 53 ≤ m.val.natAbs := by
  by_contra hlt
  have hm := seen_of_isExact (n := m) (Decimal.isExact_of_le (by omega))
  rcases Nat.le_total n.val.natAbs (2 ^ 53) with hle | hge
  · have hn := seen_of_isExact (n := n) (Decimal.isExact_of_le hle)
    exact hne (eq_of_val_eq (hm.symm.trans (h.trans hn)))
  · have hleading := Decimal.leading_mono hge
    rw [Decimal.leading_of_le (Nat.le_refl _), ← Decimal.natAbs_nearest, ← seen, ← h, hm] at hleading
    omega

theorem not_toldApart_iff : ¬ToldApart m n ↔ m ≠ n ∧ m.seen = n.seen := by
  rw [ToldApart, not_or, not_not]

theorem toldApart_of_isExact (hm : Decimal.IsExact m.val.natAbs) (hn : Decimal.IsExact n.val.natAbs) :
    ToldApart m n := by
  refine or_iff_not_imp_right.mpr fun hseen => ?_
  rw [not_not, seen_of_isExact hm, seen_of_isExact hn] at hseen
  exact val_inj.mp hseen

theorem near_of_seen_eq (h : m.seen = n.seen) : |m.val - n.val| ≤ 2048 := by
  obtain ⟨hm, hm'⟩ := Decimal.nearest_near m.natAbs_lt
  obtain ⟨hn, hn'⟩ := Decimal.nearest_near n.natAbs_lt
  rw [← seen] at hm hm' hn hn'
  rw [abs_le]
  omega

end Whole

theorem Number.rounded_whole (n : Whole) : (Number.whole n).rounded = n.seen :=
  Decimal.value_ofInt_nearest n.natAbs_lt.le

namespace Json

def whole (n : Whole) : Json := .num (.whole n)

theorem compare_whole (m n : Whole) : compare (whole m) (whole n) = Ord.compare m.seen n.seen := by
  rw [whole, whole, compare_num, Number.compare_rounded, Number.rounded_whole, Number.rounded_whole]
  rw [← cmp_eq_compare, ← cmp_eq_compare]
  exact Int.cast_strictMono.cmp_map_eq m.seen n.seen

theorem compareSameKind?_whole (m n : Whole) :
    compareSameKind? (whole m) (whole n) = some (Ord.compare m.seen n.seen) :=
  congrArg some (compare_whole m n)

theorem seenAlike_whole {m n : Whole} : seenAlike (whole m) (whole n) ↔ m.seen = n.seen := by
  rw [← compare_eq_eq, compare_whole, compare_eq_iff_eq]

end Json

namespace Filter

def Operator.meets : Operator → List Int → Int → Bool
  | .eq, [a], n => n == a
  | .neq, [a], n => n != a
  | .gt, [a], n => a < n
  | .gte, [a], n => a ≤ n
  | .lt, [a], n => n < a
  | .lte, [a], n => n ≤ a
  | .oneOf, as, n => as.contains n
  | .noneOf, as, n => !as.contains n
  | .between, [a, b], n => min a b ≤ n && n ≤ max a b
  | .notBetween, [a, b], n => !(min a b ≤ n && n ≤ max a b)
  | _, _, _ => false

inductive HasIntegers : Operator → Json → List Whole → Prop
  | one {op : Operator} (hop : op ∈ [.eq, .neq, .gt, .gte, .lt, .lte]) (a : Whole) :
      HasIntegers op (.whole a) [a]
  | list {op : Operator} (hop : op ∈ [.oneOf, .noneOf]) {as : List Whole} (some : as ≠ []) :
      HasIntegers op (.arr (as.map .whole)) as
  | bounds {op : Operator} (hop : op ∈ [.between, .notBetween]) (a b : Whole) :
      HasIntegers op (.arr [.whole a, .whole b]) [a, b]

variable {op : Operator} {v : Json} {as : List Whole}

theorem standing_whole (a n : Whole) :
    standing .plain (.whole a) (.whole n) = some (Ord.compare n.seen a.seen) :=
  Json.compareSameKind?_whole n a

theorem isAtLeast_compare (x y : Int) : isAtLeast (some (Ord.compare x y)) = decide (y ≤ x) := by
  rw [Bool.eq_iff_iff, isAtLeast_iff, decide_eq_true_iff, ← Std.isGE_compare]
  exact ⟨fun ⟨_, hc, hge⟩ => Option.some.inj hc ▸ hge, fun hge => ⟨_, rfl, hge⟩⟩

theorem isAtMost_compare (x y : Int) : isAtMost (some (Ord.compare x y)) = decide (x ≤ y) := by
  rw [Bool.eq_iff_iff, isAtMost_iff, decide_eq_true_iff, ← Std.isLE_compare]
  exact ⟨fun ⟨_, hc, hle⟩ => Option.some.inj hc ▸ hle, fun hle => ⟨_, rfl, hle⟩⟩

theorem standing_eq (a n : Whole) :
    (standing .plain (.whole a) (.whole n) == some .eq) = (n.seen == a.seen) := by
  rw [standing_whole, Bool.eq_iff_iff, beq_iff_eq, beq_iff_eq, Option.some.injEq, compare_eq_iff_eq]

theorem isBetween_whole (a b n : Whole) :
    isBetween .plain (inOrder .plain (.whole a) (.whole b)) (.whole n) =
      (decide (min a.seen b.seen ≤ n.seen) && decide (n.seen ≤ max a.seen b.seen)) := by
  have hbetween (a b : Whole) : isBetween .plain (.whole a, .whole b) (.whole n) =
      (decide (a.seen ≤ n.seen) && decide (n.seen ≤ b.seen)) := by
    rw [isBetween, standing_whole, standing_whole, isAtLeast_compare, isAtMost_compare]
  have horder : standing .plain (.whole b) (.whole a) = some .gt ↔ b.seen < a.seen := by
    rw [standing_whole, Option.some.injEq, compare_gt_iff_gt]
  unfold inOrder
  split
  · rename_i hgt
    have hle := (horder.mp hgt).le
    rw [hbetween, min_eq_right hle, max_eq_left hle]
  · rename_i hngt
    have hle := not_lt.mp (mt horder.mpr hngt)
    rw [hbetween, min_eq_left hle, max_eq_right hle]

theorem any_whole (as : List Whole) (n : Whole) :
    ((as.map Json.whole).any fun o => standing .plain o (.whole n) == some .eq) =
      (as.map Whole.seen).contains n.seen := by
  induction as with
  | nil => rfl
  | cons a as ih => rw [List.map_cons, List.any_cons, ih, standing_eq, List.map_cons, List.contains_cons]

theorem accepts_whole (h : HasIntegers op v as) (n : Whole) :
    op.accepts .plain v (some (.whole n)) = op.meets (as.map Whole.seen) n.seen := by
  cases h with
  | one hop a =>
    simp only [List.mem_cons, List.not_mem_nil, or_false] at hop
    rcases hop with rfl | rfl | rfl | rfl | rfl | rfl
    · exact standing_eq a n
    · exact congrArg not (standing_eq a n)
    · show (standing .plain (.whole a) (.whole n) == some .gt) = decide (a.seen < n.seen)
      rw [standing_whole, Bool.eq_iff_iff, beq_iff_eq, Option.some.injEq, compare_gt_iff_gt,
        decide_eq_true_iff]
    · show isAtLeast (standing .plain (.whole a) (.whole n)) = decide (a.seen ≤ n.seen)
      rw [standing_whole, isAtLeast_compare]
    · show (standing .plain (.whole a) (.whole n) == some .lt) = decide (n.seen < a.seen)
      rw [standing_whole, Bool.eq_iff_iff, beq_iff_eq, Option.some.injEq, compare_lt_iff_lt,
        decide_eq_true_iff]
    · show isAtMost (standing .plain (.whole a) (.whole n)) = decide (n.seen ≤ a.seen)
      rw [standing_whole, isAtMost_compare]
  | list hop hne =>
    simp only [List.mem_cons, List.not_mem_nil, or_false] at hop
    rcases hop with rfl | rfl
    · exact any_whole as n
    · exact congrArg not (any_whole as n)
  | bounds hop a b =>
    simp only [List.mem_cons, List.not_mem_nil, or_false] at hop
    rcases hop with rfl | rfl
    · exact isBetween_whole a b n
    · exact congrArg not (isBetween_whole a b n)

theorem meets_seen (h : HasIntegers op v as) {n : Whole} (hn : ∀ a ∈ as, a.ToldApart n) :
    op.meets (as.map Whole.seen) n.seen = op.meets (as.map Whole.val) n.val := by
  have hany : (as.map Whole.seen).contains n.seen = (as.map Whole.val).contains n.val := by
    rw [Bool.eq_iff_iff, List.contains_iff_mem, List.contains_iff_mem, List.mem_map, List.mem_map]
    exact exists_congr fun a => and_congr_right fun ha => (hn a ha).seen_eq_iff
  cases h with
  | one hop a =>
    have ha := hn a (List.mem_singleton_self a)
    have heq : (n.seen == a.seen) = (n.val == a.val) := by
      rw [Bool.eq_iff_iff, beq_iff_eq, beq_iff_eq, ha.symm.seen_eq_iff]
    simp only [List.mem_cons, List.not_mem_nil, or_false] at hop
    rcases hop with rfl | rfl | rfl | rfl | rfl | rfl
    · exact heq
    · exact congrArg not heq
    · exact decide_eq_decide.mpr ha.seen_lt_iff
    · exact decide_eq_decide.mpr ha.seen_le_iff
    · exact decide_eq_decide.mpr ha.symm.seen_lt_iff
    · exact decide_eq_decide.mpr ha.symm.seen_le_iff
  | list hop =>
    simp only [List.mem_cons, List.not_mem_nil, or_false] at hop
    rcases hop with rfl | rfl
    · exact hany
    · exact congrArg not hany
  | bounds hop a b =>
    have ha := hn a (by simp)
    have hb := hn b (by simp)
    have hbetween : (decide (min a.seen b.seen ≤ n.seen) && decide (n.seen ≤ max a.seen b.seen)) =
        (decide (min a.val b.val ≤ n.val) && decide (n.val ≤ max a.val b.val)) := by
      rw [Bool.eq_iff_iff, Bool.and_eq_true, Bool.and_eq_true, decide_eq_true_iff, decide_eq_true_iff,
        decide_eq_true_iff, decide_eq_true_iff, min_le_iff, min_le_iff, le_max_iff, le_max_iff,
        ha.seen_le_iff, hb.seen_le_iff, ha.symm.seen_le_iff, hb.symm.seen_le_iff]
    simp only [List.mem_cons, List.not_mem_nil, or_false] at hop
    rcases hop with rfl | rfl
    · exact hbetween
    · exact congrArg not hbetween

theorem coerceItems_plain (vs : List Json) : coerceItems .plain vs = .ok (vs.map .json) := by
  induction vs with
  | nil => rfl
  | cons v vs ih => rw [coerceItems, ih]; rfl

theorem isBlank_of_hasIntegers (h : HasIntegers op v as) : isBlank v = false := by
  cases h with
  | one | bounds => rfl
  | list hop hne =>
    obtain ⟨a, as, rfl⟩ := List.exists_cons_of_ne_nil hne
    cases as <;> rfl

theorem exists_conditionOf (h : HasIntegers op v as) :
    ∃ c, conditionOf .plain op v = .ok (some c) := by
  cases h with
  | one hop a =>
    simp only [List.mem_cons, List.not_mem_nil, or_false] at hop
    rcases hop with rfl | rfl | rfl | rfl | rfl | rfl <;> exact ⟨_, rfl⟩
  | list hop hne =>
    simp only [List.mem_cons, List.not_mem_nil, or_false] at hop
    rcases hop with rfl | rfl <;>
      exact ⟨_, by rw [conditionOf, coerceList, coerceItems_plain]; rfl⟩
  | bounds hop a b =>
    obtain ⟨bounds, hbounds⟩ := orderedBounds_isOk_iff.mpr
      (⟨⟨_, rfl⟩, ⟨_, rfl⟩, by rw [standing_whole]; rfl⟩ :
        (∃ oa, coerce .plain (.whole a) = .ok oa) ∧ (∃ ob, coerce .plain (.whole b) = .ok ob) ∧
          (standing .plain (.whole b) (.whole a)).isSome)
    have hblank : hasBlankBound (.arr [.whole a, .whole b]) = false := rfl
    have hrange : rangeOf .plain (.arr [.whole a, .whole b]) =
        .ok (some (.within bounds.1 bounds.2)) := by
      rw [rangeOf, hblank, if_neg Bool.false_ne_true, hbounds]
      rfl
    simp only [List.mem_cons, List.not_mem_nil, or_false] at hop
    rcases hop with rfl | rfl <;> exact ⟨_, by rw [conditionOf, hrange]; rfl⟩

theorem holds_whole {field : Path} (hkind : fieldKind field.normalize = .plain)
    (h : HasIntegers op v as) :
    ∃ p, compileLeaf field op v = .ok p ∧ ∀ doc n, doc.at? field.normalize = some (.whole n) →
      p.holds doc = op.meets (as.map Whole.seen) n.seen := by
  obtain ⟨c, hc⟩ := exists_conditionOf h
  have hblank := isBlank_of_hasIntegers h
  refine ⟨.field field.normalize c, compileLeaf_eq_field hblank (by rw [hkind, hc]), ?_⟩
  intro doc n hstored
  have hholds : some (c.holds (some (.whole n))) =
      if op.setsNothing v then none else some (op.accepts .plain v (some (.whole n))) :=
    conditionOf_holds hc (isBlank_eq_isNothing v ▸ hblank)
  split at hholds
  · cases hholds
  · rw [Predicate.holds, hstored, Option.some.inj hholds, accepts_whole h]

end Filter

namespace Query.Lookup

variable {l : Lookup} {doc : Json} {foreign : List Json}

theorem mem_joined_whole (hdoc : ∀ k, doc.IsKey l.localField k → ∃ m, k = .whole m)
    (hforeign : ∀ f ∈ foreign, ∀ k, f.IsKey l.foreignField k → ∃ n, k = .whole n) {f : Json}
    (hf : f ∈ foreign) :
    f ∈ l.joined foreign doc ↔ ∃ m n : Whole, doc.IsKey l.localField (.whole m) ∧
      f.IsKey l.foreignField (.whole n) ∧ m.seen = n.seen := by
  rw [joined_eq, List.mem_filter, and_iff_right hf, sharesKey_iff]
  constructor
  · rintro ⟨k, k', hk, hk', hseen⟩
    obtain ⟨m, rfl⟩ := hdoc k hk
    obtain ⟨n, rfl⟩ := hforeign f hf k' hk'
    exact ⟨m, n, hk, hk', Json.seenAlike_whole.mp hseen⟩
  · rintro ⟨m, n, hm, hn, hseen⟩
    exact ⟨_, _, hm, hn, Json.seenAlike_whole.mpr hseen⟩

theorem mem_joined_of_toldApart (hdoc : ∀ k, doc.IsKey l.localField k → ∃ m, k = .whole m)
    (hforeign : ∀ f ∈ foreign, ∀ k, f.IsKey l.foreignField k → ∃ n, k = .whole n) {f : Json}
    (hf : f ∈ foreign)
    (happart : ∀ m n : Whole, doc.IsKey l.localField (.whole m) →
      f.IsKey l.foreignField (.whole n) → m.ToldApart n) :
    f ∈ l.joined foreign doc ↔
      ∃ n : Whole, doc.IsKey l.localField (.whole n) ∧ f.IsKey l.foreignField (.whole n) := by
  rw [mem_joined_whole hdoc hforeign hf]
  constructor
  · rintro ⟨m, n, hm, hn, hseen⟩
    obtain rfl := Whole.val_inj.mp ((happart m n hm hn).seen_eq_iff.mp hseen)
    exact ⟨m, hm, hn⟩
  · rintro ⟨n, hm, hn⟩
    exact ⟨n, n, hm, hn, rfl⟩

end Query.Lookup

namespace Query

/-- Comparisons see an integer rounded to the nearest of 53 significant bits. They never turn two
integers around and find them in order exactly if they are the same or rounded to different ones, as
those are that have a double of their own, all up to 2^53 among them. Two that are taken for each
other are both at least 2^53 and no more than 2048 apart. The operators of a filter and the keys of
a lookup go by what is seen, and so by the integers themselves where these are told apart. -/
theorem integers_compared (m n : Whole) (l : Lookup) (doc : Json) (foreign : List Json) :
    (Json.compare (.whole m) (.whole n) = Ord.compare m.seen n.seen ∧
      Json.compareSameKind? (.whole m) (.whole n) = some (Ord.compare m.seen n.seen) ∧
      (m.val ≤ n.val → m.seen ≤ n.seen) ∧
      (Ord.compare m.seen n.seen = Ord.compare m.val n.val ↔ m.ToldApart n) ∧
      (Decimal.IsExact m.val.natAbs → Decimal.IsExact n.val.natAbs → m.ToldApart n) ∧
      (¬m.ToldApart n →
        2 ^ 53 ≤ m.val.natAbs ∧ 2 ^ 53 ≤ n.val.natAbs ∧ |m.val - n.val| ≤ 2048)) ∧
    (Decimal.IsExact n.val.natAbs → n.seen = n.val) ∧
    (n.val.natAbs ≤ 2 ^ 53 → Decimal.IsExact n.val.natAbs) ∧
    (∀ field op v as, Filter.fieldKind field.normalize = .plain → Filter.HasIntegers op v as →
      ∃ p, Filter.compileLeaf field op v = .ok p ∧
        ∀ doc : Json, doc.at? field.normalize = some (.whole n) →
          p.holds doc = op.meets (as.map Whole.seen) n.seen ∧
          ((∀ a ∈ as, a.ToldApart n) → p.holds doc = op.meets (as.map Whole.val) n.val)) ∧
    ((∀ k, doc.IsKey l.localField k → ∃ m, k = .whole m) →
      (∀ f ∈ foreign, ∀ k, f.IsKey l.foreignField k → ∃ n, k = .whole n) → ∀ f ∈ foreign,
        (f ∈ l.joined foreign doc ↔ ∃ m n : Whole, doc.IsKey l.localField (.whole m) ∧
          f.IsKey l.foreignField (.whole n) ∧ m.seen = n.seen) ∧
        ((∀ m n : Whole, doc.IsKey l.localField (.whole m) →
            f.IsKey l.foreignField (.whole n) → m.ToldApart n) →
          (f ∈ l.joined foreign doc ↔
            ∃ n : Whole, doc.IsKey l.localField (.whole n) ∧ f.IsKey l.foreignField (.whole n)))) := by
  refine ⟨⟨Json.compare_whole m n, Json.compareSameKind?_whole m n, Whole.seen_le_seen,
    Whole.compare_seen_eq_iff, Whole.toldApart_of_isExact, ?_⟩, Whole.seen_of_isExact,
    Decimal.isExact_of_le, ?_, ?_⟩
  · intro happart
    obtain ⟨hne, hseen⟩ := Whole.not_toldApart_iff.mp happart
    exact ⟨Whole.le_natAbs_of_seen_eq hseen hne, Whole.le_natAbs_of_seen_eq hseen.symm hne.symm,
      Whole.near_of_seen_eq hseen⟩
  · intro field op v as hkind hintegers
    obtain ⟨p, hp, hholds⟩ := Filter.holds_whole hkind hintegers
    refine ⟨p, hp, fun doc hstored => ⟨hholds doc n hstored, fun happart => ?_⟩⟩
    rw [hholds doc n hstored, Filter.meets_seen hintegers happart]
  · intro hdoc hforeign f hf
    exact ⟨Lookup.mem_joined_whole hdoc hforeign hf, Lookup.mem_joined_of_toldApart hdoc hforeign hf⟩

/-- The first integer that has no double of its own is taken for the one before it, by the orders,
by a filter and by a lookup. -/
theorem integers_confused :
    let n (n : Nat) : Json := .ofNat n
    let l : Lookup := ⟨"companies", ⟨["number"]⟩, ⟨["number"]⟩, ⟨["joined"]⟩, .many⟩
    let doc (k : Json) : Json := .obj [("number", k)]
    Json.compare (n 9007199254740993) (n 9007199254740992) = .eq ∧
      Json.compareSameKind? (n 9007199254740993) (n 9007199254740992) = some .eq ∧
      (Filter.compileLeaf ⟨["number"]⟩ .eq (n 9007199254740993)).toOption.map
        (·.holds (doc (n 9007199254740992))) = some true ∧
      (Filter.compileLeaf ⟨["number"]⟩ .gt (n 9007199254740992)).toOption.map
        (·.holds (doc (n 9007199254740993))) = some false ∧
      l.joined [doc (n 9007199254740993)] (doc (n 9007199254740992)) = [doc (n 9007199254740993)] := by
  decide +kernel

end Query

end Clientele
