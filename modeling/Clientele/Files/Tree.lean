/-!
A tree of files and folders. A way leads from its root through folders by their names.
-/
set_option autoImplicit false

namespace Clientele

inductive FileTree where
  | file (text : String)
  | folder (entries : List (String × FileTree))

inductive FileFault where
  | missing | present | isFolder | notFolder | badName | nameTooLong
  deriving DecidableEq, Repr

def FileFault.message : FileFault → String
  | missing => "no such file or folder"
  | present => "already there"
  | isFolder => "is a folder"
  | notFolder => "is not a folder"
  | badName => "not a file name"
  | nameTooLong => "name too long"

namespace FileTree

abbrev Way := List String

abbrev Entries := List (String × FileTree)

def child? (es : Entries) (name : String) : Option FileTree := (es.find? (·.1 == name)).map (·.2)

def putChild (es : Entries) (name : String) (t : FileTree) : Entries :=
  if (child? es name).isSome then es.map fun p => if p.1 == name then (name, t) else p
  else es ++ [(name, t)]

def dropChild (es : Entries) (name : String) : Entries := es.filter (·.1 != name)

def find? : Way → FileTree → Option FileTree
  | [], t => some t
  | name :: rest, folder es => (child? es name).bind (find? rest)
  | _ :: _, file _ => none

def adjust (f : Entries → Entries) : Way → FileTree → FileTree
  | _, file text => file text
  | [], folder es => folder (f es)
  | name :: rest, folder es =>
    folder (es.map fun p => if p.1 == name then (p.1, adjust f rest p.2) else p)

/-- Puts a tree at the end of a way, with the folders on it. A file on the way stays. -/
def plant (t : FileTree) : Way → FileTree → FileTree
  | [], _ => t
  | _ :: _, file text => file text
  | name :: rest, folder es =>
    folder (putChild es name (plant t rest ((child? es name).getD (folder []))))

def filesOf : FileTree → List (String × String)
  | file _ => []
  | folder es => es.filterMap fun (name, t) =>
    match t with
    | file text => some (name, text)
    | folder _ => none

end FileTree

end Clientele
