import Clientele.Query.Execute
import Clientele.Proofs.Filter.Compile
import Clientele.Proofs.Query.Sort

/-!
What a query answers, said without stages: the stored documents with what the relations add to each,
those of them that the filter admits, sorted stably, and of these one page. Planning a query and
running its two pipelines gives exactly this answer.
-/
set_option autoImplicit false

namespace Clientele.Query

def Stage.extend (stored : String → List Json) (doc : Json) : Stage → Json
  | .lookup l => l.apply (stored l.source) doc
  | .derived d => d.apply doc
  | _ => doc

/-- A document with what the relations add to it, one after another. -/
def related (stored : String → List Json) (relations : Pipeline) (doc : Json) : Json :=
  relations.foldl (Stage.extend stored) doc

/-- The documents of a collection that a predicate admits, relations added. Lookups read what is
stored. -/
def found (s : Store) (collection : String) (relations : Pipeline) (p : Filter.Predicate) :
    List Json :=
  ((s.rows collection).map (related s.rows relations)).filter (p.holds ·)

/-- The rows behind an offset, cut to a limit where there is one. -/
def pageOf (offset : Nat) (limit : Option Nat) (rows : List Json) : List Json :=
  match limit with
  | none => rows.drop offset
  | some n => (rows.drop offset).take n

/-- The answers to a query. -/
inductive Answers (s : Store) (collection : String) (relations : Pipeline) (maxLimit : Nat)
    (q : Criteria) : Except Error Connection → Prop where
  | unreadable {e : Filter.Error} (filter : Filter.compileOptional q.filter = .error e) :
    Answers s collection relations maxLimit q (.error (.filter e))
  | tooLarge {p : Filter.Predicate} {n : Nat} (filter : Filter.compileOptional q.filter = .ok p)
    (limit : q.paging.limit.map clamped = some n) (large : maxLimit < n) :
    Answers s collection relations maxLimit q (.error (.limit ⟨n, maxLimit⟩))
  | page {p : Filter.Predicate} {offset : Nat} {limit : Option Nat} {rows : List Json}
    (filter : Filter.compileOptional q.filter = .ok p)
    (hoffset : (q.paging.offset.map clamped).getD 0 = offset)
    (hlimit : q.paging.limit.map clamped = limit) (small : ∀ n, limit = some n → n ≤ maxLimit)
    (sorted : StablySorted (compareBy q.sorting.compile) (found s collection relations p) rows) :
    Answers s collection relations maxLimit q (.ok {
      nodes := pageOf offset limit rows
      totalCount := (found s collection relations p).length
      pageInfo := {
        hasNext := limit.any fun n => offset + n < rows.length
        hasPrevious := 0 < offset } })

variable {stored : String → List Json}

theorem Pipeline.run_append (p q : Pipeline) (docs : List Json) :
    (p ++ q : Pipeline).run stored docs = q.run stored (p.run stored docs) := by
  simp [Pipeline.run]

theorem Pipeline.run_cons (stage : Stage) (p : Pipeline) (docs : List Json) :
    Pipeline.run stored (stage :: p) docs = p.run stored (stage.apply stored docs) := rfl

theorem Stage.apply_of_isRelation {stage : Stage} (h : stage.isRelation = true)
    (docs : List Json) : stage.apply stored docs = docs.map fun d => stage.extend stored d := by
  cases stage <;> first | rfl | simp [Stage.isRelation] at h

theorem Pipeline.run_relations {relations : Pipeline}
    (h : ∀ stage ∈ relations, stage.isRelation = true) (docs : List Json) :
    relations.run stored docs = docs.map (related stored relations) := by
  induction relations generalizing docs with
  | nil => exact (List.map_id' docs).symm
  | cons stage relations ih =>
    rw [run_cons, Stage.apply_of_isRelation (h stage (by simp)),
      ih (fun t ht => h t (by simp [ht])), List.map_map]
    rfl

theorem run_selection {relations : Pipeline} (h : ∀ stage ∈ relations, stage.isRelation = true)
    (p : Filter.Predicate) (docs : List Json) :
    (selection relations p).run stored docs =
      (docs.map (related stored relations)).filter (p.holds ·) := by
  rw [selection, Pipeline.run_append, Pipeline.run_relations h]
  by_cases hp : p.isAlways = true
  · rw [Filter.Predicate.eq_always hp]
    simp [Filter.Predicate.isAlways, Pipeline.run, Filter.Predicate.holds,
      List.filter_eq_self.mpr]
  · simp [hp, Pipeline.run, Stage.apply]

theorem run_sortStage (keys : List SortKey) (docs : List Json) :
    StablySorted (compareBy keys) docs ((sortStage keys).run stored docs) := by
  cases keys with
  | nil => exact stablySorted_nil_iff.mpr rfl
  | cons k ks => exact stablySorted_sortBy (k :: ks) docs

theorem clamped_lt (n : Int64) : clamped n < 0x8000000000000000 := by
  have h := n.toInt_lt
  unfold clamped
  omega

theorem Paging.compile_eq (p : Paging) (maxLimit : Nat) :
    (∃ n, p.limit.map clamped = some n ∧ maxLimit < n ∧
      p.compile maxLimit = .error ⟨n, maxLimit⟩) ∨
    ((∀ n, p.limit.map clamped = some n → n ≤ maxLimit) ∧
      p.compile maxLimit = .ok ⟨(p.offset.map clamped).getD 0, p.limit.map clamped⟩) := by
  unfold Paging.compile
  cases hl : p.limit.map clamped with
  | none => exact .inr ⟨by simp, rfl⟩
  | some n =>
    by_cases hn : maxLimit < n
    · exact .inl ⟨n, rfl, hn, by simp [hn]⟩
    · refine .inr ⟨fun m hm => ?_, by simp [hn]⟩
      cases hm
      omega

theorem offset_lt (p : Paging) : (p.offset.map clamped).getD 0 < 0x8000000000000000 := by
  cases p.offset with
  | none => simp
  | some n => exact clamped_lt n

theorem limit_lt {p : Paging} {n : Nat} (h : p.limit.map clamped = some n) :
    n < 0x8000000000000000 := by
  obtain ⟨m, -, rfl⟩ := Option.map_eq_some_iff.mp h
  exact clamped_lt m

theorem addCounts_of_paging (p : Paging) {n : Nat} (h : p.limit.map clamped = some n) :
    (p.offset.map clamped).getD 0 + n ≤ maxCount ∧
      addCounts ((p.offset.map clamped).getD 0) n = (p.offset.map clamped).getD 0 + n := by
  have hoffset := offset_lt p
  have hlimit := limit_lt h
  have hle : (p.offset.map clamped).getD 0 + n ≤ maxCount := by
    unfold maxCount
    omega
  exact ⟨hle, Nat.min_eq_left hle⟩

theorem run_skip (offset : Nat) (rows : List Json) :
    Pipeline.run stored (if 0 < offset then [.skip offset] else []) rows = rows.drop offset := by
  by_cases h : 0 < offset
  · simp [h, Pipeline.run, Stage.apply]
  · simp [Nat.eq_zero_of_not_pos h, Pipeline.run]

theorem run_window (p : Paging) (rows : List Json) :
    Pipeline.run stored (Window.stages ⟨(p.offset.map clamped).getD 0, p.limit.map clamped⟩) rows =
      pageOf ((p.offset.map clamped).getD 0) (p.limit.map clamped) rows := by
  rw [Window.stages, Pipeline.run_append, run_skip]
  cases hl : p.limit.map clamped with
  | none => rfl
  | some n =>
    have hstop := (addCounts_of_paging p hl).2
    simp only [Window.stop, Option.map_some, hstop, pageOf, Pipeline.run, List.foldl_cons,
      List.foldl_nil, Stage.apply]
    rw [List.drop_take, Nat.add_sub_cancel_left]

theorem pageInfo_window (p : Paging) (total : Nat) :
    Window.pageInfo ⟨(p.offset.map clamped).getD 0, p.limit.map clamped⟩ total =
      ⟨(p.limit.map clamped).any fun n => (p.offset.map clamped).getD 0 + n < total,
        0 < (p.offset.map clamped).getD 0⟩ := by
  cases hl : p.limit.map clamped with
  | none => rfl
  | some n => simp [Window.pageInfo, Window.stop, (addCounts_of_paging p hl).2]

variable {s : Store} {collection : String} {q : Criteria} {relations : Pipeline} {maxLimit : Nat}

theorem total_eq (h : ∀ stage ∈ relations, stage.isRelation = true) (p : Filter.Predicate)
    (rows : Pipeline) (w : Window) :
    Plan.total ⟨rows, if p.isAlways then none else some (selection relations p), w⟩ s collection =
      (found s collection relations p).length := by
  by_cases hp : p.isAlways = true
  · rw [Filter.Predicate.eq_always hp]
    simp [Plan.total, Filter.Predicate.isAlways, Filter.Predicate.holds, Store.countAll, found,
      Store.rows, Store.Collection.rows, List.filter_eq_self.mpr]
  · simp [hp, Plan.total, Store.aggregate, run_selection h, found]

theorem run_plan (h : ∀ stage ∈ relations, stage.isRelation = true) (p : Filter.Predicate)
    (keys : List SortKey) (paging : Paging) :
    Plan.run ⟨selection relations p ++ sortStage keys ++
          Window.stages ⟨(paging.offset.map clamped).getD 0, paging.limit.map clamped⟩,
        if p.isAlways then none else some (selection relations p),
        ⟨(paging.offset.map clamped).getD 0, paging.limit.map clamped⟩⟩ s collection =
      { nodes := pageOf ((paging.offset.map clamped).getD 0) (paging.limit.map clamped)
          ((sortStage keys).run s.rows (found s collection relations p))
        totalCount := (found s collection relations p).length
        pageInfo := {
          hasNext := (paging.limit.map clamped).any fun n =>
            (paging.offset.map clamped).getD 0 + n < (found s collection relations p).length
          hasPrevious := 0 < (paging.offset.map clamped).getD 0 } } := by
  have hnodes : s.aggregate collection (selection relations p ++ sortStage keys ++
        Window.stages ⟨(paging.offset.map clamped).getD 0, paging.limit.map clamped⟩) =
      pageOf ((paging.offset.map clamped).getD 0) (paging.limit.map clamped)
        ((sortStage keys).run s.rows (found s collection relations p)) := by
    rw [Store.aggregate, Pipeline.run_append, Pipeline.run_append, run_selection h, run_window]
    rfl
  simp only [Plan.run, hnodes, total_eq h, pageInfo_window]

theorem answers_execute (h : ∀ stage ∈ relations, stage.isRelation = true) :
    Answers s collection relations maxLimit q (execute s collection q relations maxLimit) := by
  unfold execute plan
  cases hf : Filter.compileOptional q.filter with
  | error e => exact .unreadable hf
  | ok p =>
    obtain ⟨n, hn, hlarge, hc⟩ | ⟨hsmall, hc⟩ := Paging.compile_eq q.paging maxLimit
    · rw [hc]
      exact .tooLarge hf hn hlarge
    · rw [hc]
      have hsorted : StablySorted (compareBy q.sorting.compile) (found s collection relations p)
          (Pipeline.run s.rows (sortStage q.sorting.compile) (found s collection relations p)) :=
        run_sortStage _ _
      have hpage := Answers.page hf rfl rfl hsmall hsorted
      rw [hsorted.perm.length_eq, ← run_plan h] at hpage
      exact hpage

theorem Answers.unique {r r' : Except Error Connection}
    (hr : Answers s collection relations maxLimit q r)
    (hr' : Answers s collection relations maxLimit q r') : r = r' := by
  cases hr with
  | unreadable hf =>
    cases hr' with
    | unreadable hf' => cases hf.symm.trans hf'; rfl
    | tooLarge hf' _ _ => cases hf.symm.trans hf'
    | page hf' _ _ _ _ => cases hf.symm.trans hf'
  | tooLarge hf hn hlarge =>
    cases hr' with
    | unreadable hf' => cases hf.symm.trans hf'
    | tooLarge _ hn' _ => cases hn.symm.trans hn'; rfl
    | page _ _ hlimit hsmall _ => exact absurd (hsmall _ (hlimit.symm.trans hn)) (by omega)
  | page hf hoffset hlimit hsmall hsorted =>
    cases hr' with
    | unreadable hf' => cases hf.symm.trans hf'
    | tooLarge _ hn hlarge => exact absurd (hsmall _ (hlimit.symm.trans hn)) (by omega)
    | page hf' hoffset' hlimit' _ hsorted' =>
      cases hf.symm.trans hf'
      subst hoffset hlimit hoffset' hlimit'
      rw [hsorted.unique hsorted']

/-- A query is answered by what it asks for, and the end of its page is never cut off. -/
theorem execute_refines (h : ∀ stage ∈ relations, stage.isRelation = true) :
    (∀ r, execute s collection q relations maxLimit = r ↔
      Answers s collection relations maxLimit q r) ∧
    ∀ w n, q.paging.compile maxLimit = .ok w → w.limit = some n →
      w.stop = some (w.offset + n) ∧ w.offset + n ≤ maxCount := by
  refine ⟨fun r => ⟨?_, fun hr => (answers_execute h).unique hr⟩, fun w n hw hn => ?_⟩
  · rintro rfl
    exact answers_execute h
  · obtain ⟨_, _, _, hc⟩ | ⟨-, hc⟩ := Paging.compile_eq q.paging maxLimit
    · cases hc.symm.trans hw
    · cases hc.symm.trans hw
      obtain ⟨hle, hstop⟩ := addCounts_of_paging q.paging hn
      exact ⟨by rw [Window.stop, hn, Option.map_some, hstop], hle⟩

theorem execute_refines_contacts :
    let relations : Pipeline := [
      .lookup ⟨"contacts", ⟨["_id"]⟩, ⟨["companyId"]⟩, ⟨["contacts"]⟩, .many⟩,
      .derived (.size ⟨["contacts"]⟩ ⟨["contactCount"]⟩)]
    let contact : Fields := [("companyId", .str "2")]
    let s : Store := ⟨[
      ("companies", ⟨[[("_id", .str "1")], [("_id", .str "2")]], .empty⟩),
      ("contacts", ⟨[contact], .empty⟩)]⟩
    (∀ stage ∈ relations, stage.isRelation = true) ∧
      execute s "companies" ⟨none, [], ⟨some 1, some 5⟩⟩ relations 100 = .ok
        ⟨[.obj [("_id", .str "2"), ("contacts", .arr [.obj contact]), ("contactCount", .ofNat 1)]],
          2, ⟨false, true⟩⟩ := by
  intro relations contact s
  have h : ∀ stage ∈ relations, stage.isRelation = true := by simp [relations, Stage.isRelation]
  have hfound : found s "companies" relations .always = [
      .obj [("_id", .str "1"), ("contacts", .arr []), ("contactCount", .ofNat 0)],
      .obj [("_id", .str "2"), ("contacts", .arr [.obj contact]), ("contactCount", .ofNat 1)]] := by
    rfl
  have hpage : Answers s "companies" relations 100 ⟨none, [], ⟨some 1, some 5⟩⟩ _ :=
    .page rfl rfl rfl (by decide) (stablySorted_nil_iff.mpr rfl)
  rw [hfound] at hpage
  exact ⟨h, ((execute_refines h).1 _).mpr hpage⟩

end Clientele.Query
