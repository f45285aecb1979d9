import Mathlib
import Clientele.Query.Stage
import Clientele.Proofs.Document.Path
import Clientele.Proofs.Json.Value

/-!
Sums over documents. A sum of 64-bit integers is kept as an integer as long as every running sum is
one, and from the first that is none on only as a double, be the whole sum a 64-bit integer again.
In which order the documents come does not matter exactly if the positive addends alone and the
negative ones alone stay in range.
-/
set_option autoImplicit false

namespace Clientele

def Json.IsInteger (v : Json) (n : Int) : Prop := ∃ w : Whole, w.val = n ∧ v = .num (.whole w)

namespace Query.Derived

def integerAt? (field : Path) (doc : Json) : Option Int :=
  match doc.at? field with
  | some (.num n) => n.toInt64?
  | _ => none

def integersAt (field : Path) (docs : List Json) : List Int := docs.filterMap (integerAt? field)

def hasNumberAt (field : Path) (doc : Json) : Bool :=
  match doc.at? field with
  | some (.num _) => true
  | _ => false

/-- The sum as a double, rounded at every addend. -/
def doubleSum (ns : List Number) : Json :=
  Json.orNull ((Number.ofFloat? (ns.foldl (fun x n => x + n.toFloat) 0)).map .num)

/-- Whether no running sum leaves the 64-bit integers. -/
def StaysInRange (ks : List Int) : Prop := ∀ p, p <+: ks → inInt64 p.sum

variable {field : Path} {docs : List Json}

theorem filterMap_numbersAt (field : Path) (docs : List Json) :
    (numbersAt field docs).filterMap Number.toInt64? = integersAt field docs := by
  rw [numbersAt, List.filterMap_filterMap, integersAt]
  refine List.filterMap_congr fun doc _ => ?_
  unfold integerAt?
  split <;> simp_all

theorem numbersAt_filter (field : Path) (docs : List Json) :
    numbersAt field (docs.filter (hasNumberAt field)) = numbersAt field docs := by
  rw [numbersAt, List.filterMap_filter, numbersAt]
  refine List.filterMap_congr fun doc _ => ?_
  unfold hasNumberAt
  split <;> simp_all

theorem inInt64_iff {n : Int} :
    inInt64 n ↔ -0x8000000000000000 ≤ n ∧ n < 0x8000000000000000 := by
  simp [inInt64]

theorem exact_foldl_of_none {s : Sum} (h : s.exact = none) (ns : List Number) :
    (ns.foldl Sum.add s).exact = none := by
  induction ns generalizing s with
  | nil => exact h
  | cons n ns ih => exact ih (by simp [Sum.add, h])

theorem approximate_foldl (s : Sum) (ns : List Number) :
    (ns.foldl Sum.add s).approximate = ns.foldl (fun x n => x + n.toFloat) s.approximate := by
  induction ns generalizing s with
  | nil => rfl
  | cons n ns ih => exact ih (s.add n)

theorem exact_foldl_eq_some {s : Sum} {a t : Int} (hs : s.exact = some a) (ha : inInt64 a)
    {ns : List Number} (hns : ∀ n ∈ ns, n.toInt64?.isSome) :
    (ns.foldl Sum.add s).exact = some t ↔
      (∀ p, p <+: ns.filterMap Number.toInt64? → inInt64 (a + p.sum)) ∧
        t = a + (ns.filterMap Number.toInt64?).sum := by
  induction ns generalizing s a with
  | nil => simpa [hs, ha] using eq_comm
  | cons n ns ih =>
    rw [List.forall_mem_cons] at hns
    obtain ⟨k, hk⟩ := Option.isSome_iff_exists.mp hns.1
    have hexact : (s.add n).exact = if inInt64 (a + k) then some (a + k) else none := by
      simp [Sum.add, hs, hk]
    rw [List.foldl_cons, List.filterMap_cons_some hk, List.sum_cons, ← add_assoc]
    by_cases hrange : inInt64 (a + k) = true
    · rw [if_pos hrange] at hexact
      rw [ih hexact hrange hns.2]
      simp only [List.prefix_cons_iff, forall_eq_or_imp, List.sum_nil, add_zero, ha, true_and,
        forall_exists_index, and_imp]
      refine and_congr_left fun _ => ⟨?_, fun h p hp => ?_⟩
      · rintro h _ p rfl hp
        rw [List.sum_cons, ← add_assoc]
        exact h p hp
      · have := h (k :: p) p rfl hp
        rwa [List.sum_cons, ← add_assoc] at this
    · rw [if_neg hrange] at hexact
      rw [exact_foldl_of_none hexact]
      refine iff_of_false (by simp) fun h => hrange ?_
      simpa using h.1 [k] (List.prefix_cons_inj k |>.mpr List.nil_prefix)

theorem not_isInteger_ofFloat? (x : Float) (n : Int) :
    ¬(Json.orNull ((Number.ofFloat? x).map .num)).IsInteger n := by
  rintro ⟨w, -, hw⟩
  unfold Number.ofFloat? at hw
  split at hw <;> cases hw

theorem toJson_of_none {s : Sum} (h : s.exact = none) :
    s.toJson = Json.orNull ((Number.ofFloat? s.approximate).map .num) := by
  rw [Sum.toJson, h]

theorem isInteger_toJson {s : Sum} {t : Int} (h : s.exact = some t) (ht : inInt64 t) :
    s.toJson.IsInteger t := by
  obtain ⟨hlower, hupper⟩ := inInt64_iff.mp ht
  have hfits : Number.ofInt? t = some (.whole ⟨t, hlower, by omega⟩) := dif_pos ⟨hlower, by omega⟩
  refine ⟨⟨t, hlower, by omega⟩, rfl, ?_⟩
  rw [Sum.toJson, h]
  exact congrArg (fun n => Json.orNull (n.map Json.num)) hfits

/-- A sum of integers is the integer exactly if no running sum leaves the range, and a double else.
-/
theorem sumOf_cases (h : ∀ n ∈ numbersAt field docs, n.toInt64?.isSome) :
    (StaysInRange (integersAt field docs) ∧
      (sumOf field docs).IsInteger (integersAt field docs).sum) ∨
    (¬StaysInRange (integersAt field docs) ∧
      sumOf field docs = doubleSum (numbersAt field docs)) := by
  have hexact (t : Int) := exact_foldl_eq_some (s := Sum.zero) (t := t) rfl (by decide) h
  simp only [zero_add, filterMap_numbersAt] at hexact
  by_cases hrange : StaysInRange (integersAt field docs)
  · refine .inl ⟨hrange, isInteger_toJson ((hexact _).mpr ⟨hrange, rfl⟩) ?_⟩
    exact hrange _ (List.prefix_refl _)
  · refine .inr ⟨hrange, ?_⟩
    have hnone : ((numbersAt field docs).foldl Sum.add Sum.zero).exact = none :=
      Option.eq_none_iff_forall_ne_some.mpr fun t ht => hrange ((hexact t).mp ht).1
    rw [sumOf, toJson_of_none hnone, approximate_foldl]
    rfl

theorem isInteger_sumOf_iff (h : ∀ n ∈ numbersAt field docs, n.toInt64?.isSome) :
    (sumOf field docs).IsInteger (integersAt field docs).sum ↔
      StaysInRange (integersAt field docs) := by
  rcases sumOf_cases h with ⟨hrange, hsum⟩ | ⟨hrange, hsum⟩
  · exact iff_of_true hsum hrange
  · exact iff_of_false (hsum ▸ not_isInteger_ofFloat? _ _) hrange

theorem sum_eq_of_signs (ks : List Int) :
    (ks.filter (0 < ·)).sum + (ks.filter (· < 0)).sum = ks.sum ∧
      0 ≤ (ks.filter (0 < ·)).sum ∧ (ks.filter (· < 0)).sum ≤ 0 := by
  induction ks with
  | nil => simp
  | cons k ks ih =>
    obtain ⟨hsum, hpositive, hnegative⟩ := ih
    rcases lt_trichotomy k 0 with hk | rfl | hk
    · simp [hk, hk.not_gt]
      omega
    · simpa using ⟨hsum, hpositive, hnegative⟩
    · simp [hk, hk.not_gt]
      omega

theorem staysInRange_of_perm {ks ls : List Int} (hperm : ls.Perm ks)
    (hpositive : inInt64 (ks.filter (0 < ·)).sum) (hnegative : inInt64 (ks.filter (· < 0)).sum) :
    StaysInRange ls := by
  rintro p ⟨r, rfl⟩
  have hp := sum_eq_of_signs p
  have hr := sum_eq_of_signs r
  rw [← (hperm.filter _).sum_eq, List.filter_append, List.sum_append, inInt64_iff] at hpositive hnegative
  rw [inInt64_iff]
  omega

def firstly (field : Path) (test : Int → Bool) (docs : List Json) : List Json :=
  docs.filter (fun d => (integerAt? field d).any test) ++
    docs.filter (fun d => !(integerAt? field d).any test)

theorem firstly_perm (field : Path) (test : Int → Bool) (docs : List Json) :
    (firstly field test docs).Perm docs :=
  List.filter_append_perm _ docs

theorem prefix_integersAt_firstly (field : Path) (test : Int → Bool) (docs : List Json) :
    (integersAt field docs).filter test <+: integersAt field (firstly field test docs) := by
  have hfirst : integersAt field (docs.filter fun d => (integerAt? field d).any test) =
      (integersAt field docs).filter test := by
    rw [integersAt, integersAt, List.filterMap_filter, List.filter_filterMap]
    refine List.filterMap_congr fun d _ => ?_
    cases integerAt? field d <;> simp [Option.filter]
  rw [← hfirst, firstly, integersAt, integersAt, List.filterMap_append]
  exact List.prefix_append _ _

/-- In every order the sum is the integer exactly if it is one where the positive addends come first
and where the negative ones do. -/
theorem forall_perm_staysInRange_iff :
    (∀ docs', docs'.Perm docs → StaysInRange (integersAt field docs')) ↔
      inInt64 ((integersAt field docs).filter (0 < ·)).sum ∧
        inInt64 ((integersAt field docs).filter (· < 0)).sum := by
  constructor
  · intro h
    exact ⟨h _ (firstly_perm field _ docs) _ (prefix_integersAt_firstly field _ docs),
      h _ (firstly_perm field _ docs) _ (prefix_integersAt_firstly field _ docs)⟩
  · rintro ⟨hpositive, hnegative⟩ docs' hperm
    exact staysInRange_of_perm (hperm.filterMap _) hpositive hnegative

/-- Sums of 64-bit integers. Such a sum is the integer itself exactly if no running sum leaves the
64-bit integers; it is the sum of the doubles else, which is never an integer. It is the integer in
every order of the documents exactly if the positive addends stay in range by themselves and the
negative ones too. Documents without a number at the field count for nothing; where there are no
others the sum is zero. -/
theorem sum_of_integers (h : ∀ n ∈ numbersAt field docs, n.toInt64?.isSome) :
    ((sumOf field docs).IsInteger (integersAt field docs).sum ↔
      StaysInRange (integersAt field docs)) ∧
    (¬StaysInRange (integersAt field docs) → sumOf field docs = doubleSum (numbersAt field docs) ∧
      ∀ n, ¬(sumOf field docs).IsInteger n) ∧
    ((∀ docs', docs'.Perm docs → (sumOf field docs').IsInteger (integersAt field docs).sum) ↔
      inInt64 ((integersAt field docs).filter (0 < ·)).sum ∧
        inInt64 ((integersAt field docs).filter (· < 0)).sum) ∧
    sumOf field (docs.filter (hasNumberAt field)) = sumOf field docs ∧
    (docs.filter (hasNumberAt field) = [] → (sumOf field docs).IsInteger 0) ∧
    ∀ doc source target, doc.at? source = some (.arr docs) →
      ((Derived.sum source field target).apply doc).at? target = some (sumOf field docs) := by
  have hfilter : sumOf field (docs.filter (hasNumberAt field)) = sumOf field docs := by
    rw [sumOf, numbersAt_filter, sumOf]
  refine ⟨isInteger_sumOf_iff h, fun hrange => ?_, ?_, hfilter, fun hnone => ?_,
    fun doc source target hsource => ?_⟩
  · obtain ⟨hstays, -⟩ | ⟨-, hsum⟩ := sumOf_cases h
    · exact absurd hstays hrange
    · exact ⟨hsum, fun n => hsum ▸ not_isInteger_ofFloat? _ _⟩
  · rw [← forall_perm_staysInRange_iff]
    refine forall₂_congr fun docs' hperm => ?_
    have h' : ∀ n ∈ numbersAt field docs', n.toInt64?.isSome := fun n hn =>
      h n ((hperm.filterMap _).mem_iff.mp hn)
    have hsum : (integersAt field docs').sum = (integersAt field docs).sum :=
      (hperm.filterMap _).sum_eq
    rw [← hsum, isInteger_sumOf_iff h']
  · rw [← hfilter, hnone]
    exact ⟨⟨0, by decide, by decide⟩, rfl, rfl⟩
  · rw [apply, listAt, hsource]
    exact Json.resolve_setSegments _ target.segments doc

theorem sum_of_integers_refund :
    let amount : Path := ⟨["amount"]⟩
    let paid : Number := .whole ⟨0x7FFFFFFFFFFFFFFF, by decide, by decide⟩
    let refunded : Number := .whole ⟨-0x8000000000000000, by decide, by decide⟩
    let docs : List Json := [.obj [("amount", .num paid)], .obj [("amount", .str "none")], .obj [],
      .obj [("amount", .num refunded)]]
    (∀ n ∈ numbersAt amount docs, n.toInt64?.isSome) ∧
      (integersAt amount docs).sum = -1 ∧
      ∀ docs', docs'.Perm docs → (sumOf amount docs').IsInteger (integersAt amount docs).sum := by
  intro amount paid refunded docs
  have h : ∀ n ∈ numbersAt amount docs, n.toInt64?.isSome := by decide +kernel
  exact ⟨h, by decide +kernel, (sum_of_integers h).2.2.1.mpr (by decide +kernel)⟩

/-- Three amounts with the sum 1: after the second of them the sum is a double, from which the 1 is
lost. In another order they are summed as they should be. -/
theorem sum_missed :
    let amount : Path := ⟨["amount"]⟩
    let doc (n : Number) : Json := .obj [("amount", .num n)]
    let most : Json := doc (.whole ⟨0x7FFFFFFFFFFFFFFF, by decide, by decide⟩)
    let least : Json := doc (.whole ⟨-0x7FFFFFFFFFFFFFFF, by decide, by decide⟩)
    let one : Json := doc (.whole ⟨1, by decide, by decide⟩)
    (∀ n ∈ numbersAt amount [most, one, least], n.toInt64?.isSome) ∧
      (integersAt amount [most, one, least]).sum = 1 ∧
      sumOf amount [most, one, least] = .num (.real ⟨0, by decide⟩) ∧
      sumOf amount [most, least, one] = .num (.whole ⟨1, by decide, by decide⟩) := by
  decide +kernel

end Query.Derived

end Clientele
