import Clientele.Proofs.Crm.Bulk
import Clientele.Proofs.Document.Path

/-!
Three ways to read one document: by its key in the store, as one entity, and by a query for its
identifier. They agree, for the documents of a collection have distinct identifiers, the index knows
where each of them is, and no relation writes over an identifier.
-/
set_option autoImplicit false

namespace Clientele

theorem Json.at?_of_get? {v w : Json} {key : String} (h : v.get? key = some w) :
    v.at? ⟨[key]⟩ = some w :=
  (resolve_of_get? h []).trans (resolve_nil w)

namespace Filter

theorem read_leaves (policy : Policy) (leaves : List (String × Operator × Json))
    (h : ∀ l ∈ leaves, Connective.ofName? l.1 = none) :
    read policy (.obj (leaves.map fun l => (l.1, .obj [(l.2.1.name, l.2.2)]))) =
      .pure (Tree.conjunction (leaves.map fun l => .leaf (.ofText l.1) l.2.1 l.2.2)) := by
  have hentries : readEntries policy (leaves.map fun l => (l.1, .obj [(l.2.1.name, l.2.2)])) =
      .pure (leaves.map fun l => .leaf (.ofText l.1) l.2.1 l.2.2) := by
    induction leaves with
    | nil => rfl
    | cons l leaves ih =>
      rw [List.forall_mem_cons] at h
      obtain ⟨field, op, operand⟩ := l
      have hop : Operator.ofName? op.name = some op := by cases op <;> decide
      have hoperators : readOperators policy (.ofText field) [(op.name, operand)] =
          .pure [.leaf (.ofText field) op operand] := by
        cases operand <;> simp only [readOperators, hop] <;> rfl
      simp only [List.map_cons, readEntries, h.1, readField, hoperators, ih h.2]
      rfl
  rw [read, hentries]
  rfl

theorem read_leaf (policy : Policy) {field : String} (hfield : Connective.ofName? field = none)
    (op : Operator) (operand : Json) :
    read policy (.obj [(field, .obj [(op.name, operand)])]) =
      .pure (some (.leaf (.ofText field) op operand)) :=
  read_leaves policy [(field, op, operand)] (by simpa using hfield)

end Filter

namespace Crm

theorem holds_hasId {row : Json} {own : Identifier} (hrow : rowId? row = some own)
    (id : Identifier) : (hasId id).holds row = decide (own = id) := by
  obtain ⟨v, hv, hown⟩ := Option.bind_eq_some_iff.mp hrow
  have hpath : row.at? (Path.ofText Path.primaryKey) = some v := Json.at?_of_get? hv
  cases v with
  | str s =>
    have heq : compare own id = .eq ↔ own = id := Std.LawfulEqCmp.compare_eq_iff_eq
    have hcompare : (some (own.compare id) == some Ordering.eq) = decide (own = id) := by
      rw [Bool.eq_iff_iff, beq_iff_eq, decide_eq_true_iff, Option.some.injEq]
      exact heq
    simp only [hasId, Filter.Predicate.holds, hpath, Filter.Condition.holds, Filter.candidates,
      List.any_cons, List.any_nil, Bool.or_false, Filter.Check.passes,
      Filter.Operand.compareStored?, hown, Option.map_some, hcompare]
  | _ => cases hown

theorem compile_id {text : String} {id : Identifier} (h : Identifier.ofText? text = some id) :
    Filter.compileOptional (some (.leaf (.ofText "id") .eq (.str text))) = .ok (hasId id) := by
  have hblank : Filter.isBlank (.str text) = false := by
    have hempty : Identifier.ofText? "" = none := by decide
    refine beq_eq_false_iff_ne.mpr ?_
    rintro rfl
    cases hempty.symm.trans h
  have hcoerce : Filter.coerceSingle .identifier (.str text) = .ok (.id id) := by
    simp [Filter.coerceSingle, Filter.coerce, Identifier.ofJson?, Json.text?, h]
  have hpath : (Path.ofText "id").normalize = Path.ofText Path.primaryKey := by decide
  have hkind : Filter.fieldKind (Path.ofText Path.primaryKey) = .identifier := by decide
  simp only [Filter.compileOptional, Filter.compile, Filter.compileLeaf, hblank, hpath, hkind,
    Filter.conditionOf, hcoerce]
  rfl

namespace Book

variable {b : Book} {e : Entity}

theorem admitted_hasId (he : e ∈ catalog) (h : (b.store.collection e.collection).WellIndexed)
    (id : Identifier) : b.admitted e (hasId id) = (b.store.get? e.collection id).toList := by
  rw [Store.get?, ← h.filter_documentId?]
  refine List.filter_congr fun doc hdoc => ?_
  obtain ⟨own, hown⟩ := Option.isSome_iff_exists.mp (h.keyed doc hdoc)
  have hrow := (rowId?_related he b.store.rows doc).trans hown
  rw [admits, holds_hasId hrow, hown]
  simp

/-- One entity is the document under its identifier, relations joined. -/
theorem findOne_eq_map_get? (he : e ∈ catalog)
    (h : (b.store.collection e.collection).WellIndexed) (id : Identifier) :
    b.findOne e id = (b.store.get? e.collection id).map fun doc =>
      Query.related b.store.rows e.relations (.obj doc) := by
  have hrows : b.store.aggregate e.collection (e.relations ++ [.filter (hasId id), .limit 1]) =
      (Query.found b.store e.collection e.relations (hasId id)).take 1 := by
    rw [Store.aggregate, Query.Pipeline.run_append,
      Query.Pipeline.run_relations fun stage hs => (relations_of_mem_catalog he stage hs).1]
    rfl
  rw [findOne, hrows, found_eq_map_admitted, admitted_hasId he h]
  cases b.store.get? e.collection id <;> rfl

/-- In every store that comes of calls on one that was opened, under every spelling of an
identifier: one entity is the document that the store keeps under the identifier, relations joined,
and a query for the identifier shows it, or nothing. -/
theorem reads_agree {s : Store} (hs : s.IsOpened) (calls : List Store.Call)
    (hstore : b.store = (s.runCalls calls).2) (he : e ∈ catalog) (settings : Settings)
    {text : String} {id : Identifier} (htext : Identifier.ofText? text = some id)
    (sorting : Query.SortRequest) :
    (b.findOne e id = (b.store.get? e.collection id).map fun doc =>
      Query.related b.store.rows e.relations (.obj doc)) ∧
    ∃ q page,
      b.readRequest settings ⟨.obj [("id", .obj [("eq", .str text)])], sorting, .everything⟩ =
        (.ok q, b) ∧
      (b.find settings e q).1 = .ok page ∧ page.nodes = (b.findOne e id).toList ∧
      page.totalCount = (b.findOne e id).toList.length ∧ page.pageInfo = ⟨false, false⟩ := by
  have hindex : (b.store.collection e.collection).WellIndexed := by
    rw [hstore]
    exact (hs.wellIndexed.runCalls calls).1 e.collection
  have hone := findOne_eq_map_get? he hindex id
  obtain ⟨page, hfind, hsorted, htotal, hinfo⟩ :=
    find_unpaged he (compile_id htext) b settings sorting
  rw [admitted_hasId he hindex] at hsorted htotal
  have hread : b.readRequest settings
      ⟨.obj [("id", .obj [("eq", .str text)])], sorting, .everything⟩ =
        (.ok ⟨some (.leaf (.ofText "id") .eq (.str text)), sorting, .everything⟩, b) := by
    have hleaf := Filter.read_leaf settings.policy
      (by decide : Filter.Connective.ofName? "id" = none) .eq (.str text)
    rw [readRequest, Query.Request.read]
    exact congrArg (fun r => b.accept (Filter.Reading.map _ r)) hleaf
  refine ⟨hone, _, page, hread, hfind, ?_, ?_, hinfo⟩
  · rw [hone]
    cases hget : b.store.get? e.collection id with
    | none =>
      rw [hget] at hsorted
      exact hsorted.perm.eq_nil
    | some doc =>
      rw [hget] at hsorted
      exact List.perm_singleton.mp hsorted.perm
  · rw [htotal, hone]
    cases b.store.get? e.collection id <;> rfl

theorem reads_agree_capitals :
    let stage : Fields := [("_id", .str "00000000-0000-0000-0000-00000000000b"),
      ("title", .str "Done")]
    let task : Fields := [("_id", .str "00000000-0000-0000-0000-00000000000a"),
      ("stageId", .str "00000000-0000-0000-0000-00000000000b")]
    let calls : List Store.Call := [.insert "taskstages" (.obj stage), .insert "tasks" (.obj task)]
    let b : Book := ⟨(Store.empty.runCalls calls).2, .memory [], .zero, [],
      ⟨fun n => ⟨BitVec.ofNat 128 n⟩, fun _ => ⟨19844, 36000, 250000000⟩, 0, 0⟩⟩
    let text := "URN:UUID:00000000-0000-0000-0000-00000000000A"
    Store.empty.IsOpened ∧ tasks ∈ catalog ∧ Identifier.ofText? text = some ⟨10⟩ ∧
      ((b.findOne tasks ⟨10⟩).bind (·.at? (.ofText "stage.title"))).bind Json.text? = some "Done" ∧
      (b.findOne tasks ⟨10⟩ = (b.store.get? tasks.collection ⟨10⟩).map fun doc =>
        Query.related b.store.rows tasks.relations (.obj doc)) ∧
      ∃ q page,
        b.readRequest .standard ⟨.obj [("id", .obj [("eq", .str text)])], [], .everything⟩ =
          (.ok q, b) ∧
        (b.find .standard tasks q).1 = .ok page ∧
        page.nodes = (b.findOne tasks ⟨10⟩).toList ∧
        page.totalCount = (b.findOne tasks ⟨10⟩).toList.length ∧
        page.pageInfo = ⟨false, false⟩ := by
  intro stage task calls b text
  have htasks : tasks ∈ catalog := by simp [catalog]
  have htext : Identifier.ofText? text = some ⟨10⟩ := by decide +kernel
  exact ⟨.empty, htasks, htext, by decide +kernel,
    reads_agree .empty calls rfl htasks .standard htext []⟩

end Book

end Crm

end Clientele
