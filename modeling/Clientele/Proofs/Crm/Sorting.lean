import Clientele.Proofs.Crm.Bulk
import Clientele.Proofs.Document.Path

/-!
Sorting by what relations add. A sort key is spelled as documents are stored, with the primary key
for `id`, and a relation writes to its target as this is spelled. The two are the same place for
every target but the number of tasks of a stage, whose last name is `id`.
-/
set_option autoImplicit false

namespace Clientele

namespace Query

def Stage.target? : Stage → Option Path
  | lookup l => some l.target
  | derived (.size _ target) | derived (.sum _ _ target) => some target
  | _ => none

theorem compareBy_single (t : Path) (d : Direction) :
    compareBy (SortRequest.compile [⟨t, d⟩]) =
      fun a b => d.apply (Json.compareOptional (a.at? t.normalize) (b.at? t.normalize)) := by
  funext a b
  exact Ordering.then_eq

variable {stored : String → List Json} {q : Path}

theorem Stage.at?_of_extend {stage : Stage}
    (h : ∀ t, stage.target? = some t → Json.diverge t.segments q.segments) {doc v : Json}
    (hv : (stage.extend stored doc).at? q = some v) : doc.at? q = some v := by
  cases stage with
  | lookup l => exact Json.resolve_of_setSegments (h l.target rfl) hv
  | derived d => cases d <;> exact Json.resolve_of_setSegments (h _ rfl) hv
  | _ => exact hv

/-- Relations put nothing at a path that parts from their targets. -/
theorem at?_of_related {relations : Pipeline}
    (h : ∀ stage ∈ relations, ∀ t, stage.target? = some t → Json.diverge t.segments q.segments)
    {doc v : Json} (hv : (related stored relations doc).at? q = some v) : doc.at? q = some v := by
  induction relations generalizing doc with
  | nil => exact hv
  | cons stage relations ih =>
    rw [List.forall_mem_cons] at h
    exact stage.at?_of_extend h.1 (ih h.2 hv)

end Query

namespace Crm

def taskCount : Path := .ofText "tasksAggregate.count.id"

variable {e : Entity} {stage : Query.Stage} {t : Path}

theorem normalize_target (he : e ∈ catalog) (hstage : stage ∈ e.relations)
    (htarget : stage.target? = some t) : t = taskCount ∨ t.normalize = t := by
  have hall : catalog.all fun e => e.relations.all fun stage => stage.target?.all fun t =>
      t = taskCount ∨ t.normalize = t := by decide +kernel
  have hentity := List.all_eq_true.mp (List.all_eq_true.mp hall e he) stage hstage
  rw [htarget] at hentity
  exact of_decide_eq_true hentity

theorem diverge_target (he : e ∈ catalog) (hstage : stage ∈ e.relations)
    (htarget : stage.target? = some t) :
    Json.diverge t.segments taskCount.normalize.segments := by
  have hall : catalog.all fun e => e.relations.all fun stage => stage.target?.all fun t =>
      Json.diverge t.segments taskCount.normalize.segments := by decide +kernel
  have hentity := List.all_eq_true.mp (List.all_eq_true.mp hall e he) stage hstage
  rwa [htarget] at hentity

namespace Book

variable {b : Book} {filter : Option Filter.Tree} {p : Filter.Predicate}

/-- The documents that a filter admits, in the order of their collection, relations added. -/
def rowsOf (b : Book) (e : Entity) (p : Filter.Predicate) : List Json :=
  (b.admitted e p).map fun doc => Query.related b.store.rows e.relations (.obj doc)

/-- A sort by what a relation adds sorts by it, with rows that are alike in the order of their
collection. Only the number of tasks of a stage is looked for in another place, and where no stored
document has something there, the rows stay as they are. -/
theorem find_sorted_by_target (he : e ∈ catalog) (hstage : stage ∈ e.relations)
    (htarget : stage.target? = some t) (hp : Filter.compileOptional filter = .ok p) (b : Book)
    (settings : Settings) (d : Query.Direction) :
    ∃ page, (b.find settings e ⟨filter, [⟨t, d⟩], .everything⟩).1 = .ok page ∧
      (t ≠ taskCount → StablySorted
        (fun x y => d.apply (Json.compareOptional (x.at? t) (y.at? t))) (b.rowsOf e p) page.nodes) ∧
      (t = taskCount → StablySorted
          (fun x y => d.apply (Json.compareOptional (x.at? t.normalize) (y.at? t.normalize)))
          (b.rowsOf e p) page.nodes ∧
        ((∀ doc ∈ b.admitted e p, (Json.obj doc).at? t.normalize = none) →
          page.nodes = b.rowsOf e p)) := by
  obtain ⟨page, hfind, hsorted, -, -⟩ := find_unpaged he hp b settings [⟨t, d⟩]
  rw [Query.compareBy_single] at hsorted
  refine ⟨page, hfind, fun hne => ?_, fun heq => ⟨hsorted, fun hnone => ?_⟩⟩
  · rwa [(normalize_target he hstage htarget).resolve_left hne] at hsorted
  · refine hsorted.eq_of_alike ?_
    -- nothing is stored there and no relation puts something there, so that all rows are alike
    have hmissing : ∀ row ∈ b.rowsOf e p, row.at? t.normalize = none := by
      intro row hrow
      obtain ⟨doc, hdoc, rfl⟩ := List.mem_map.mp hrow
      refine Option.eq_none_iff_forall_ne_some.mpr fun v hv => ?_
      have hstored : (Json.obj doc).at? t.normalize = some v :=
        Query.at?_of_related (fun stage hs t' ht => heq ▸ diverge_target he hs ht) hv
      simp [hnone doc hdoc] at hstored
    intro x hx y hy
    rw [hmissing x hx, hmissing y hy]
    cases d <;> rfl

theorem find_sorted_by_comments :
    let task (n : Nat) : Json := .obj [("_id", (⟨BitVec.ofNat 128 n⟩ : Identifier).toJson)]
    let comment (n task : Nat) : Json := .obj [("_id", (⟨BitVec.ofNat 128 n⟩ : Identifier).toJson),
      ("taskId", (⟨BitVec.ofNat 128 task⟩ : Identifier).toJson)]
    let calls : List Store.Call := [.insert "tasks" (task 1), .insert "tasks" (task 2),
      .insert "taskcomments" (comment 3 2), .insert "taskcomments" (comment 4 2)]
    let b : Book := ⟨(Store.empty.runCalls calls).2, .memory [], .zero, [],
      ⟨fun n => ⟨BitVec.ofNat 128 (n + 10)⟩, fun _ => ⟨19844, 36000, 250000000⟩, 0, 0⟩⟩
    let count : Path := .ofText "comments.totalCount"
    tasks ∈ catalog ∧ sizeOf "comments.nodes" "comments.totalCount" ∈ tasks.relations ∧
      (sizeOf "comments.nodes" "comments.totalCount").target? = some count ∧
      Filter.compileOptional none = .ok .always ∧ count ≠ taskCount ∧
      (b.rowsOf tasks .always).map (fun row => (row.at? count).bind Json.nat?) = [some 0, some 2] ∧
      ∃ page,
        (b.find .standard tasks ⟨none, [⟨count, .descending⟩], .everything⟩).1 = .ok page ∧
        StablySorted (fun x y => (Json.compareOptional (x.at? count) (y.at? count)).swap)
          (b.rowsOf tasks .always) page.nodes := by
  intro task comment calls b count
  have he : tasks ∈ catalog := by simp [catalog]
  have hstage : sizeOf "comments.nodes" "comments.totalCount" ∈ tasks.relations := by simp [tasks]
  have hcount : count ≠ taskCount := by decide +kernel
  have hall : Filter.compileOptional none = .ok .always := rfl
  obtain ⟨page, hfind, hsorted, -⟩ :=
    find_sorted_by_target he hstage rfl hall b .standard .descending
  exact ⟨he, hstage, rfl, hall, hcount, by decide +kernel, page, hfind, hsorted hcount⟩

/-- Stages that are to be sorted by the number of their tasks: the one with two stays before the one
with one. -/
theorem stages_unsorted :
    let stage (n : Nat) : Json := .obj [("_id", (⟨BitVec.ofNat 128 n⟩ : Identifier).toJson)]
    let task (n stage : Nat) : Json := .obj [("_id", (⟨BitVec.ofNat 128 n⟩ : Identifier).toJson),
      ("stageId", (⟨BitVec.ofNat 128 stage⟩ : Identifier).toJson)]
    let calls : List Store.Call := [.insert "taskstages" (stage 1), .insert "taskstages" (stage 2),
      .insert "tasks" (task 3 1), .insert "tasks" (task 4 1), .insert "tasks" (task 5 2)]
    let b : Book := ⟨(Store.empty.runCalls calls).2, .memory [], .zero, [],
      ⟨fun n => ⟨BitVec.ofNat 128 (n + 10)⟩, fun _ => ⟨19844, 36000, 250000000⟩, 0, 0⟩⟩
    sizeOf "tasksAggregate.nodes" "tasksAggregate.count.id" ∈ taskStages.relations ∧
      ∃ page,
        (b.find .standard taskStages ⟨none, [⟨taskCount, .ascending⟩], .everything⟩).1 = .ok page ∧
        page.nodes.map (fun node => (node.at? taskCount).bind Json.nat?) = [some 2, some 1] ∧
        ¬page.nodes.Pairwise fun x y =>
          (Json.compareOptional (x.at? taskCount) (y.at? taskCount)).isLE := by
  intro stage task calls b
  have he : taskStages ∈ catalog := by simp [catalog]
  have hstage : sizeOf "tasksAggregate.nodes" "tasksAggregate.count.id" ∈ taskStages.relations := by
    simp [taskStages]
  have hall : Filter.compileOptional none = .ok .always := rfl
  obtain ⟨page, hfind, hsorted, -, -⟩ :=
    find_unpaged he hall b .standard [⟨taskCount, .ascending⟩]
  have halike : ((b.rowsOf taskStages .always).all fun x => (b.rowsOf taskStages .always).all fun y =>
      Query.compareBy (Query.SortRequest.compile [⟨taskCount, .ascending⟩]) x y == .eq) = true := by
    decide +kernel
  simp only [List.all_eq_true, beq_iff_eq] at halike
  have hnodes : page.nodes = b.rowsOf taskStages .always := hsorted.eq_of_alike halike
  refine ⟨hstage, page, hfind, ?_, ?_⟩
  · rw [hnodes]
    decide +kernel
  · rw [hnodes]
    decide +kernel

end Book

end Crm

end Clientele
