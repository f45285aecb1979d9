import Mathlib.Data.List.Basic
import Clientele.Query.Request
import Clientele.Proofs.Query.Sort

/-!
Sorting by a request. A path that is asked for again is dropped, for it is only looked at where
documents are alike at it: comparing by the keys that are kept is comparing by all pairs of the
request from the left.
-/
set_option autoImplicit false

namespace Clientele.Query

/-- The keys whose path none of the paths seen so far and no earlier key has. -/
def unrepeated (seen : List Path) (ks : List SortKey) : List SortKey :=
  (ks.zipIdx.filter fun (k, i) => k.path ∉ seen ++ (ks.take i).map SortKey.path).map Prod.fst

theorem unrepeated_cons (seen : List Path) (k : SortKey) (ks : List SortKey) :
    unrepeated seen (k :: ks) =
      if k.path ∈ seen then unrepeated (k.path :: seen) ks
      else k :: unrepeated (k.path :: seen) ks := by
  have hrest : (ks.zipIdx 1).filter (fun (l, i) =>
        l.path ∉ seen ++ ((k :: ks).take i).map SortKey.path) =
      (ks.zipIdx.filter fun (l, i) =>
        l.path ∉ (k.path :: seen) ++ (ks.take i).map SortKey.path).map
          fun (l, i) => (l, i + 1) := by
    rw [List.zipIdx_succ, List.filter_map]
    congr 1
    refine List.filter_congr fun p _ => ?_
    simp [Bool.and_left_comm]
  rw [unrepeated, List.zipIdx_cons, Nat.zero_add, List.filter_cons, hrest]
  by_cases hk : k.path ∈ seen <;> simp [hk, unrepeated, Function.comp_def]

theorem unrepeated_congr {seen seen' : List Path} (h : ∀ p, p ∈ seen ↔ p ∈ seen')
    (ks : List SortKey) : unrepeated seen ks = unrepeated seen' ks := by
  simp [unrepeated, h]

theorem firstOfPath_eq (seen : List Path) (ks : List SortKey) :
    firstOfPath seen ks = unrepeated seen ks := by
  induction ks generalizing seen with
  | nil => rfl
  | cons k ks ih =>
    rw [firstOfPath, unrepeated_cons, ih, ih]
    by_cases hk : k.path ∈ seen
    · rw [if_pos hk, if_pos hk]
      exact unrepeated_congr (by simp [hk]) ks
    · rw [if_neg hk, if_neg hk]

section Comparing

variable {a b : Json}

theorem Direction.apply_eq_eq {d : Direction} {o : Ordering} : d.apply o = .eq ↔ o = .eq := by
  cases d
  · rfl
  · exact Ordering.swap_eq_eq

theorem SortKey.compare_eq_eq {k : SortKey} :
    k.compare a b = .eq ↔ Json.compareOptional (a.at? k.path) (b.at? k.path) = .eq :=
  Direction.apply_eq_eq

theorem compareBy_firstOfPath {seen : List Path}
    (halike : ∀ p ∈ seen, Json.compareOptional (a.at? p) (b.at? p) = .eq) (ks : List SortKey) :
    compareBy (firstOfPath seen ks) a b = compareBy ks a b := by
  induction ks generalizing seen with
  | nil => rfl
  | cons k ks ih =>
    rw [firstOfPath]
    by_cases hk : k.path ∈ seen
    · have hcompare : k.compare a b = .eq := SortKey.compare_eq_eq.mpr (halike k.path hk)
      rw [if_pos hk, ih halike, compareBy, hcompare, Ordering.eq_then]
    · rw [if_neg hk, compareBy, compareBy]
      cases hcompare : k.compare a b with
      | lt | gt => rfl
      | eq =>
        -- the later keys are only asked where the documents are alike at the path of this one
        refine congrArg _ (ih fun p hp => ?_)
        rcases List.mem_cons.mp hp with rfl | hp
        · exact SortKey.compare_eq_eq.mp hcompare
        · exact halike p hp

end Comparing

theorem SortKey.normalize_of_not_mem {k : SortKey} (h : "id" ∉ k.path.segments) :
    k.normalize = k := by
  have hsegments : k.path.segments.map (fun s => if s = "id" then Path.primaryKey else s) =
      k.path.segments := by
    refine (List.map_congr_left fun s hs => if_neg ?_).trans (List.map_id' _)
    rintro rfl
    exact h hs
  rw [normalize, Path.normalize, hsegments]

/-- A request sorts documents stably by all its pairs from the left, each path spelled as it is
stored: the order of the keys that are kept, which are those whose path does not occur before, is
the order of all of them. Without a pair there is no sorting. -/
theorem sorted_by_request (stored : String → List Json) (r : SortRequest) (docs : List Json) :
    Std.TransCmp (compareBy r.compile) ∧
    StablySorted (compareBy r.compile) docs (Stage.apply stored docs (.sort r.compile)) ∧
    (∀ sorted, StablySorted (compareBy r.compile) docs sorted →
      sorted = Stage.apply stored docs (.sort r.compile)) ∧
    r.compile = unrepeated [] (r.map SortKey.normalize) ∧
    compareBy r.compile = compareBy (r.map SortKey.normalize) ∧
    ((∀ k ∈ r, "id" ∉ k.path.segments) → compareBy r.compile = compareBy r) ∧
    Stage.apply stored docs (.sort (SortRequest.compile [])) = docs ∧
    (sortStage r.compile).run stored docs = Stage.apply stored docs (.sort r.compile) := by
  have hsorted : StablySorted (compareBy r.compile) docs (Stage.apply stored docs (.sort r.compile)) :=
    stablySorted_sortBy r.compile docs
  have hall : compareBy r.compile = compareBy (r.map SortKey.normalize) :=
    funext fun a => funext fun b => compareBy_firstOfPath (by simp) (r.map SortKey.normalize)
  refine ⟨inferInstance, hsorted, fun sorted h => h.unique hsorted, firstOfPath_eq [] _, hall,
    fun hplain => ?_, stablySorted_nil_iff.mp (stablySorted_sortBy [] docs), ?_⟩
  · have hkeys : r.map SortKey.normalize = r :=
      (List.map_congr_left fun k hk => SortKey.normalize_of_not_mem (hplain k hk)).trans
        (List.map_id' r)
    rw [hall, hkeys]
  · cases hkeys : r.compile with
    | nil => exact (stablySorted_nil_iff.mp (stablySorted_sortBy [] docs)).symm
    | cons k ks => rfl

end Clientele.Query
