import Clientele.Filter.Wire
import Clientele.Filter.Compile
import Clientele.Query.Stage

/-!
Queries: a filter, sort keys and a page. A query is planned as a pipeline for the rows and one for
their count; where nothing is filtered the whole collection is counted.
-/
set_option autoImplicit false

namespace Clientele.Query

structure Request where
  filter : Json
  sorting : SortRequest
  paging : Paging

namespace Request

def everything : Request := ⟨.null, [], .everything⟩

def ofJson? (v : Json) : Option Request :=
  match v.slots? ["filter", "sorting", "paging"] with
  | some [filter, sorting, paging] => do
    let sorting ← Json.withDefault? [] SortRequest.ofJson? sorting
    let paging ← Json.withDefault? Paging.everything Paging.ofJson? paging
    pure ⟨Json.orNull filter, sorting, paging⟩
  | _ => none

end Request

/-- What a request asks for, once its filter has been read. -/
structure Criteria where
  filter : Option Filter.Tree
  sorting : SortRequest
  paging : Paging

def Request.read (r : Request) (policy : Filter.Policy) : Filter.Reading Criteria :=
  (Filter.read policy r.filter).map fun tree => ⟨tree, r.sorting, r.paging⟩

inductive Error where
  | filter (e : Filter.Error)
  | limit (e : LimitExceeded)

def Error.code : Error → String
  | .filter e => e.code
  | .limit _ => "CRM_QUERY_LIMIT_EXCEEDED"

def Error.message : Error → String
  | .filter e => e.message
  | .limit l => s!"limit {l.requested} exceeds maximum of {l.max}"

structure Plan where
  rows : Pipeline
  /-- Nothing where the whole collection is counted. -/
  count : Option Pipeline
  window : Window

def selection (relations : Pipeline) (p : Filter.Predicate) : Pipeline :=
  relations ++ if p.isAlways then [] else [.filter p]

def sortStage (keys : List SortKey) : Pipeline := if keys.isEmpty then [] else [.sort keys]

/-- Plans a query. A filter that does not compile is found before a limit that is too large. -/
def plan (q : Criteria) (relations : Pipeline) (maxLimit : Nat) : Except Error Plan := do
  let p ← (Filter.compileOptional q.filter).mapError .filter
  let window ← (q.paging.compile maxLimit).mapError .limit
  let selected := selection relations p
  pure ⟨selected ++ sortStage q.sorting.compile ++ window.stages,
    if p.isAlways then none else some selected, window⟩

def Plan.toJson (p : Plan) : Json :=
  .obj [("pipeline", p.rows.toJson),
    ("count", match p.count with
      | some c => c.toJson
      | none => .str "collection"),
    ("window", p.window.toJson)]

end Clientele.Query
