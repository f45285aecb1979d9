import Clientele.Proofs.Query.Refinement
import Mathlib.Data.List.Permutation

/-!
Reading a result page by page. From the first offset on, one page after another until one has no
next page, the pages make up the result of the same query without paging.
-/
set_option autoImplicit false

namespace Clientele.Query

def Criteria.page (q : Criteria) (offset limit : Int64) : Criteria :=
  { q with paging := ⟨some offset, some limit⟩ }

def Criteria.unpaged (q : Criteria) : Criteria := { q with paging := .everything }

/-- Pages that are read one after another, the first at an offset, the last without a next page. -/
inductive Walk (s : Store) (collection : String) (relations : Pipeline) (maxLimit : Nat)
    (q : Criteria) (limit : Int64) : Int64 → List Connection → Prop where
  | last {offset : Int64} {c : Connection}
    (page : execute s collection (q.page offset limit) relations maxLimit = .ok c)
    (done : c.pageInfo.hasNext = false) :
    Walk s collection relations maxLimit q limit offset [c]
  | next {offset following : Int64} {c : Connection} {cs : List Connection}
    (page : execute s collection (q.page offset limit) relations maxLimit = .ok c)
    (more : c.pageInfo.hasNext = true) (sum : following.toInt = offset.toInt + limit.toInt)
    (rest : Walk s collection relations maxLimit q limit following cs) :
    Walk s collection relations maxLimit q limit offset (c :: cs)

/-- Pages that make up `rows`, each but the last with `n` of them, and each with the same total. -/
structure Tile (n total : Nat) (rows : List Json) (pages : List Connection) : Prop where
  nodes : pages.flatMap (·.nodes) = rows
  full : ∀ c ∈ pages.dropLast, c.nodes.length = n
  total : ∀ c ∈ pages, c.totalCount = total

section

variable {n total : Nat} {rows rest : List Json} {pages : List Connection} {c : Connection}

theorem tile_singleton (hrows : c.nodes = rows) (htotal : c.totalCount = total) :
    Tile n total rows [c] where
  nodes := by simpa using hrows
  full := by simp
  total := by simpa using htotal

theorem Tile.cons (h : Tile n total rest pages) (hpages : pages ≠ [])
    (hrows : c.nodes ++ rest = rows) (hfull : c.nodes.length = n) (htotal : c.totalCount = total) :
    Tile n total rows (c :: pages) where
  nodes := by rw [List.flatMap_cons, h.nodes, hrows]
  full := by
    rw [List.dropLast_cons_of_ne_nil hpages, List.forall_mem_cons]
    exact ⟨hfull, h.full⟩
  total := List.forall_mem_cons.mpr ⟨htotal, h.total⟩

end

variable {s : Store} {collection : String} {q : Criteria} {relations : Pipeline} {maxLimit : Nat}
  {limit : Int64}

theorem Walk.ne_nil {offset : Int64} {pages : List Connection}
    (h : Walk s collection relations maxLimit q limit offset pages) : pages ≠ [] := by
  cases h <;> exact List.cons_ne_nil _ _

theorem Walk.unique {offset : Int64} {pages pages' : List Connection}
    (h : Walk s collection relations maxLimit q limit offset pages)
    (h' : Walk s collection relations maxLimit q limit offset pages') : pages = pages' := by
  induction h generalizing pages' with
  | last page done =>
    cases h' with
    | last page' _ => cases page.symm.trans page'; rfl
    | next page' more _ _ =>
      cases page.symm.trans page'
      cases done.symm.trans more
  | next page more sum _ ih =>
    cases h' with
    | last page' done =>
      cases page.symm.trans page'
      cases done.symm.trans more
    | next page' _ sum' rest' =>
      cases page.symm.trans page'
      cases Int64.toInt_inj.mp (sum.trans sum'.symm)
      rw [ih rest']

theorem execute_page (h : ∀ stage ∈ relations, stage.isRelation = true) {whole : Connection}
    (hwhole : execute s collection q.unpaged relations maxLimit = .ok whole) (offset : Int64)
    (hlimit : clamped limit ≤ maxLimit) :
    execute s collection (q.page offset limit) relations maxLimit = .ok {
      nodes := (whole.nodes.drop (clamped offset)).take (clamped limit)
      totalCount := whole.nodes.length
      pageInfo := {
        hasNext := clamped offset + clamped limit < whole.nodes.length
        hasPrevious := 0 < clamped offset } } := by
  have hanswer : Answers s collection relations maxLimit q.unpaged _ := answers_execute h
  rw [hwhole] at hanswer
  cases hanswer with
  | page hfilter hoffset hnone _ hsorted =>
    cases hoffset
    cases hnone
    have hsmall : ∀ n, some (clamped limit) = some n → n ≤ maxLimit := by
      rintro n ⟨⟩
      exact hlimit
    have hpage : Answers s collection relations maxLimit (q.page offset limit) _ :=
      .page hfilter rfl rfl hsmall hsorted
    rw [(answers_execute h).unique hpage, ← hsorted.perm.length_eq]
    rfl

/-- From the offset of a page on, the rest of the result can be read. -/
theorem exists_walk (h : ∀ stage ∈ relations, stage.isRelation = true) {whole : Connection}
    (hwhole : execute s collection q.unpaged relations maxLimit = .ok whole) {n : Nat}
    (hn : limit.toInt = n) (hpos : 0 < n) (hmax : n ≤ maxLimit)
    (hfits : ∀ k, k * n < whole.nodes.length → k * n < 0x8000000000000000) (k : Nat)
    {offset : Int64} (hoffset : offset.toInt = (k * n : Nat)) :
    ∃ pages, Walk s collection relations maxLimit q limit offset pages ∧
      Tile n whole.nodes.length (whole.nodes.drop (k * n)) pages := by
  have hlimit : clamped limit = n := by rw [clamped, hn, Int.toNat_natCast]
  -- What is left becomes less with every page.
  induction hleft : whole.nodes.length - k * n using Nat.strong_induction_on
    generalizing k offset with
  | _ left ih =>
    have hclamped : clamped offset = k * n := by rw [clamped, hoffset, Int.toNat_natCast]
    have hpage := execute_page h hwhole offset (hlimit.trans_le hmax)
    rw [hlimit, hclamped] at hpage
    have hsucc : (k + 1) * n = k * n + n := Nat.succ_mul k n
    by_cases hmore : k * n + n < whole.nodes.length
    · have hfit := hfits (k + 1) (hsucc.trans_lt hmore)
      have hfollowing : (Int64.ofNat ((k + 1) * n)).toInt = ((k + 1) * n : Nat) :=
        Int64.toInt_ofNat_of_lt hfit
      obtain ⟨pages, hwalk, htile⟩ := ih _ (by omega) (k + 1) hfollowing rfl
      have hsum : (Int64.ofNat ((k + 1) * n)).toInt = offset.toInt + limit.toInt := by
        rw [hfollowing, hoffset, hn, hsucc, Int.natCast_add]
      have hfull : ((whole.nodes.drop (k * n)).take n).length = n := by
        rw [List.length_take, List.length_drop]
        omega
      have hrows : (whole.nodes.drop (k * n)).take n ++ whole.nodes.drop ((k + 1) * n) =
          whole.nodes.drop (k * n) := by
        rw [hsucc, ← List.drop_drop, List.take_append_drop]
      exact ⟨_ :: pages, .next hpage (by simpa using hmore) hsum hwalk,
        htile.cons hwalk.ne_nil hrows hfull rfl⟩
    · refine ⟨_, .last hpage (by simpa using hmore), tile_singleton ?_ rfl⟩
      exact List.take_of_length_le (by rw [List.length_drop]; omega)

/-- Page after page, the result is read completely: reading comes to an end, in one way, every page
but the last is full, and the pages together are the result without paging, which is as long as each
of them says. -/
theorem pages_tile (h : ∀ stage ∈ relations, stage.isRelation = true) {whole : Connection}
    (hwhole : execute s collection q.unpaged relations maxLimit = .ok whole) {n : Nat}
    (hn : limit.toInt = n) (hpos : 1 ≤ n) (hmax : n ≤ maxLimit)
    (hfits : ∀ k, k * n < whole.nodes.length → k * n < 0x8000000000000000) :
    ∃ pages, (∀ others, Walk s collection relations maxLimit q limit 0 others ↔ others = pages) ∧
      (∀ c ∈ pages.dropLast, c.nodes.length = n) ∧
      pages.flatMap (·.nodes) = whole.nodes ∧
      ∀ c ∈ pages, c.totalCount = whole.nodes.length := by
  have hstart : (0 : Int64).toInt = (0 * n : Nat) := by simp
  obtain ⟨pages, hwalk, htile⟩ := exists_walk h hwhole hn hpos hmax hfits 0 hstart
  refine ⟨pages, fun others => ⟨fun hothers => hothers.unique hwalk, ?_⟩, htile.full, ?_, htile.total⟩
  · rintro rfl
    exact hwalk
  · simpa using htile.nodes

theorem pages_tile_tasks :
    let relations : Pipeline := [.lookup ⟨"stages", ⟨["stageId"]⟩, ⟨["_id"]⟩, ⟨["stage"]⟩, .one⟩]
    let stage (id title : String) : Fields := [("_id", .str id), ("title", .str title)]
    let task (id stageId : String) : Fields := [("_id", .str id), ("stageId", .str stageId)]
    let s : Store := ⟨[
      ("tasks", ⟨[task "1" "8", task "2" "7", task "3" "8"], .empty⟩),
      ("stages", ⟨[stage "7" "done", stage "8" "open"], .empty⟩)]⟩
    let q : Criteria := ⟨none, [⟨⟨["stageId"]⟩, .descending⟩], .everything⟩
    let row (id stageId title : String) : Json :=
      .obj [("_id", .str id), ("stageId", .str stageId), ("stage", .obj (stage stageId title))]
    let rows : List Json := [row "1" "8" "open", row "3" "8" "open", row "2" "7" "done"]
    (∀ stage ∈ relations, stage.isRelation = true) ∧
      execute s "tasks" q.unpaged relations 100 = .ok ⟨rows, 3, ⟨false, false⟩⟩ ∧
      ∃ pages, (∀ others, Walk s "tasks" relations 100 q 2 0 others ↔ others = pages) ∧
        (∀ c ∈ pages.dropLast, c.nodes.length = 2) ∧ pages.flatMap (·.nodes) = rows ∧
        ∀ c ∈ pages, c.totalCount = 3 := by
  intro relations stage task s q row rows
  have h : ∀ stage ∈ relations, stage.isRelation = true := by simp [relations, Stage.isRelation]
  have hwhole : execute s "tasks" q.unpaged relations 100 = .ok ⟨rows, 3, ⟨false, false⟩⟩ := by cbv
  have hfits : ∀ k, k * 2 < rows.length → k * 2 < 0x8000000000000000 := by
    intro k hk
    have hlength : rows.length = 3 := rfl
    omega
  exact ⟨h, hwhole, pages_tile h hwhole rfl (by decide) (by decide) hfits⟩

end Clientele.Query
