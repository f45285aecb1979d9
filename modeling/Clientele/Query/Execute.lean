import Clientele.Query.Request
import Clientele.Store.Basic

/-!
Queries against a store give one page of rows, the number of all of them, and whether there are
pages before and after it.
-/
set_option autoImplicit false

namespace Clientele.Query

structure Connection where
  nodes : List Json
  totalCount : Nat
  pageInfo : PageInfo

def Connection.toJson (c : Connection) : Json :=
  .obj [("nodes", .arr c.nodes), ("totalCount", .ofNat c.totalCount),
    ("pageInfo", c.pageInfo.toJson)]

def Plan.total (p : Plan) (s : Store) (collection : String) : Nat :=
  match p.count with
  | some c => (s.aggregate collection c).length
  | none => s.countAll collection

def Plan.run (p : Plan) (s : Store) (collection : String) : Connection :=
  let total := p.total s collection
  ⟨s.aggregate collection p.rows, total, p.window.pageInfo total⟩

def execute (s : Store) (collection : String) (q : Criteria) (relations : Pipeline) (maxLimit : Nat) :
    Except Error Connection :=
  (plan q relations maxLimit).map fun p => p.run s collection

end Clientele.Query
