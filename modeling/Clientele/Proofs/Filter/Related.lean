import Clientele.Filter.Compile
import Clientele.Proofs.Document.Path
import Clientele.Proofs.Document.SameKind

/-!
Conditions on a list of related documents. A path into the list collects what the documents have
there, and a condition is asked of what is collected, item by item. A document that has a list there
adds this list as one item, so that its items are not looked at.
-/
set_option autoImplicit false

namespace Clientele

theorem Json.not_comparable_arr {v : Json} (h : v.isScalar) (xs : List Json) :
    compareSameKind? (.arr xs) v = none := by
  cases v <;> first | rfl | simp [isScalar] at h

namespace Filter

def Operand.isScalar : Operand → Bool
  | json v => v.isScalar
  | date _ | id _ => true

def Check.isScalar : Check → Bool
  | eq o | gt o | gte o | lt o | lte o => o.isScalar
  | like _ => true
  | oneOf os => os.all Operand.isScalar
  | within least most => least.isScalar && most.isScalar

theorem Operand.compareStored?_arr {o : Operand} (h : o.isScalar) (xs : List Json) :
    o.compareStored? (.arr xs) = none := by
  cases o with
  | json v => exact Json.not_comparable_arr h xs
  | date t => rfl
  | id i => rfl

theorem Check.not_passes_arr {c : Check} (h : c.isScalar) (xs : List Json) :
    c.passes (.arr xs) = false := by
  cases c with
  | eq o | gt o | gte o | lt o | lte o => rw [passes, Operand.compareStored?_arr h]; rfl
  | like p => rfl
  | oneOf os =>
    rw [isScalar, List.all_eq_true] at h
    refine List.any_eq_false.mpr fun o ho => ?_
    rw [Operand.compareStored?_arr (h o ho)]
    decide
  | within least most =>
    rw [isScalar, Bool.and_eq_true] at h
    rw [passes, Operand.compareStored?_arr h.1]
    rfl

variable {c : Check}

theorem any_candidates_collected (hc : c.isScalar) (vs : List Json) :
    (candidates (Json.collected vs)).any c.passes = vs.any c.passes := by
  cases vs with
  | nil => rfl
  | cons v vs => rw [Json.collected, candidates, List.any_cons, Check.not_passes_arr hc, Bool.false_or]

variable {doc : Json} {f p : Path} {related : List Json}

/-- A condition on a path through a list of documents is met by what one of them has at the rest of
the path. -/
theorem holds_through_iff (hc : c.isScalar) (hdoc : doc.at? f = some (.arr related))
    (hp : ∀ s ∈ p.segments.head?, Json.index? s = none) :
    (Predicate.field (f.append p) (.some c)).holds doc ↔
      ∃ d ∈ related, ∃ v, d.at? p = some v ∧ c.passes v := by
  have hpath : doc.at? (f.append p) = (Json.arr related).resolve p.segments := by
    rw [Json.at?, Path.append, Json.resolve_append doc f.segments hp]
    exact congrArg (Option.bind · _) hdoc
  rw [Predicate.holds, Condition.holds, hpath]
  cases hsegments : p.segments with
  | nil =>
    have hat (d : Json) : d.at? p = some d := by rw [Json.at?, hsegments, Json.resolve_nil]
    simp [Json.resolve_nil, candidates, Check.not_passes_arr hc, hat]
  | cons s rest =>
    have hs : Json.index? s = none := hp s (by rw [hsegments]; rfl)
    rw [Json.resolve_each hs, any_candidates_collected hc, List.any_eq_true, ← hsegments]
    constructor
    · rintro ⟨v, hv, hpasses⟩
      obtain ⟨d, hd, hdv⟩ := List.mem_filterMap.mp hv
      exact ⟨d, hd, v, hdv, hpasses⟩
    · rintro ⟨d, hd, v, hdv, hpasses⟩
      exact ⟨v, List.mem_filterMap.mpr ⟨d, hd, hdv⟩, hpasses⟩

theorem holds_iff (hc : c.isScalar) (d : Json) :
    (Predicate.field p (.some c)).holds d ↔
      (∃ v, d.at? p = some v ∧ c.passes v) ∨ ∃ xs, d.at? p = some (.arr xs) ∧ xs.any c.passes := by
  rw [Predicate.holds, Condition.holds]
  match d.at? p with
  | none => simp [candidates]
  | some (.arr xs) => simp [candidates, Check.not_passes_arr hc]
  | some .null | some (.bool _) | some (.num _) | some (.str _) | some (.obj _) => simp [candidates]

/-- A condition through a list of documents is met by what one of them has at the rest of the path.
It agrees with the condition on the documents themselves exactly if it is met wherever one of these
meets it by an item of a list. -/
theorem holds_through (hc : c.isScalar) (hdoc : doc.at? f = some (.arr related))
    (hp : ∀ s ∈ p.segments.head?, Json.index? s = none) :
    ((Predicate.field (f.append p) (.some c)).holds doc ↔
      ∃ d ∈ related, ∃ v, d.at? p = some v ∧ c.passes v) ∧
    (((Predicate.field (f.append p) (.some c)).holds doc ↔
        ∃ d ∈ related, (Predicate.field p (.some c)).holds d) ↔
      ∀ d ∈ related, ∀ xs, d.at? p = some (.arr xs) → xs.any c.passes →
        (Predicate.field (f.append p) (.some c)).holds doc) := by
  have hthrough := holds_through_iff hc hdoc hp
  refine ⟨hthrough, fun hagree d hd xs hxs hpasses => ?_, fun hlists => ⟨fun h => ?_, ?_⟩⟩
  · exact hagree.mpr ⟨d, hd, (holds_iff hc d).mpr (.inr ⟨xs, hxs, hpasses⟩)⟩
  · obtain ⟨d, hd, hv⟩ := hthrough.mp h
    exact ⟨d, hd, (holds_iff hc d).mpr (.inl hv)⟩
  · rintro ⟨d, hd, h⟩
    rcases (holds_iff hc d).mp h with hv | ⟨xs, hxs, hpasses⟩
    · exact hthrough.mpr ⟨d, hd, hv⟩
    · exact hlists d hd xs hxs hpasses

def sharedStage : Json :=
  .obj [("tasksAggregate", .obj [("nodes", .arr [
    .obj [("title", .str "Call back"), ("userIds", .arr [.str "u1", .str "u2"])],
    .obj [("title", .str "Send the quote"), ("userIds", .arr [])]])])]

theorem holds_through_title :
    let tasks : Path := ⟨["tasksAggregate", "nodes"]⟩
    let title : Path := ⟨["title"]⟩
    let quotes : Check := .like ⟨"quote", false⟩
    ∃ nodes, quotes.isScalar ∧ sharedStage.at? tasks = some (.arr nodes) ∧
      (∀ s ∈ title.segments.head?, Json.index? s = none) ∧
      (((Predicate.field (tasks.append title) (.some quotes)).holds sharedStage ↔
          ∃ d ∈ nodes, (Predicate.field title (.some quotes)).holds d) ↔
        ∀ d ∈ nodes, ∀ xs, d.at? title = some (.arr xs) → xs.any quotes.passes →
          (Predicate.field (tasks.append title) (.some quotes)).holds sharedStage) ∧
      (Predicate.field (tasks.append title) (.some quotes)).holds sharedStage := by
  intro tasks title quotes
  have hhead : ∀ s ∈ title.segments.head?, Json.index? s = none := by decide +kernel
  have hnodes : sharedStage.at? tasks = some (.arr [
    .obj [("title", .str "Call back"), ("userIds", .arr [.str "u1", .str "u2"])],
    .obj [("title", .str "Send the quote"), ("userIds", .arr [])]]) := by rfl
  exact ⟨_, rfl, hnodes, hhead, (holds_through rfl hnodes hhead).2, by decide +kernel⟩

/-- The users of a task are not found through the stage: they are a list in the list. -/
theorem user_missed :
    let users : Path := ⟨["userIds"]⟩
    let through : Path := ⟨["tasksAggregate", "nodes", "userIds"]⟩
    let leaf (field : Path) : Option Predicate :=
      (compileLeaf field .eq (.str "u1")).toOption
    (∃ nodes, sharedStage.at? ⟨["tasksAggregate", "nodes"]⟩ = some (.arr nodes) ∧
      (leaf users).map (fun p => nodes.any (p.holds ·)) = some true) ∧
    (leaf through).map (·.holds sharedStage) = some false := by
  exact ⟨⟨_, rfl, by decide +kernel⟩, by decide +kernel⟩

end Filter

end Clientele
