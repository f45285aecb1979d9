import Clientele.Files.Route
import Clientele.Identifier

/-!
Commands: what is asked for, and the file that says where the documents are.
-/
set_option autoImplicit false

namespace Clientele

inductive Task where
  | query (entity : String)
  | compile (entity : String)
  | get (entity : String) (id : Identifier)
  | create (entity : String) (user : Identifier)
  | update (entity : String) (id user : Identifier)
  | delete (entity : String) (id : Identifier)
  | audit (entity : Option String) (user : Option Identifier) (limit : Option Nat)
  deriving DecidableEq

def Task.readsInput : Task → Bool
  | query _ | compile _ | create .. | update .. => true
  | get .. | delete .. | audit .. => false

structure Command where
  config : Route
  task : Task
  deriving DecidableEq

end Clientele
