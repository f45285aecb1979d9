import Clientele.Text.Basic

/-!
Routes to files and folders, as they are written: names with slashes between them. A route that
begins with a slash leads from the root, any other from where one is. An empty part and a point
lead nowhere, two points lead one folder up.
-/
set_option autoImplicit false

namespace Clientele

structure Route where
  text : String
  deriving DecidableEq

namespace Route

def parts (r : Route) : List String := Text.splitText '/' r.text

def ofParts (ps : List String) : Route := ⟨Text.joinText '/' ps⟩

def fromRoot (r : Route) : Bool := r.text.toList.head? = some '/'

def isIdle (part : String) : Bool := part == "" || part == "."

def isName (part : String) : Bool := !isIdle part && part != ".."

/-- Goes on from the folder of a route to a name in it. A name that leads from the root stands for
itself. -/
def join (folder : Route) (name : String) : Route :=
  if (Route.mk name).fromRoot then ⟨name⟩
  else if folder.text = "" || folder.text.toList.getLast? = some '/' then ⟨folder.text ++ name⟩
  else ⟨folder.text ++ "/" ++ name⟩

/-- Parts in reverse, up to each of those that lead somewhere. -/
def stations : List String → List (List String)
  | [] => []
  | part :: rest => if isIdle part then stations rest else (part :: rest) :: stations rest

/-- The routes to what lies on the way, nearest first; the end of the way is not among them. -/
def above (r : Route) : List Route :=
  (stations r.parts.reverse).tail.map fun ps => ofParts ps.reverse

/-- The parts of a route to a folder: slashes at its end do not count. -/
def folderParts (r : Route) : List String := (r.parts.reverse.dropWhile (· == "")).reverse

end Route

end Clientele
