import Clientele.Files.Route
import Clientele.Files.Tree

/-!
A disk: all files, and the folder where one is. A route is walked part by part, and each part must
be walked from a folder that is there, so that `a/../b` needs the folder `a`. Operations give the
new disk, or the reason why they cannot be done.
-/
set_option autoImplicit false

namespace Clientele

structure Disk where
  root : FileTree
  /-- The folder where routes begin that do not lead from the root. -/
  here : FileTree.Way

namespace Disk

def maxNameSize : Nat := 255

def maxRouteSize : Nat := 4095

/-- What is wrong with a route wherever it leads. -/
def routeFault? (r : Route) : Option FileFault :=
  if r.text = "" then some .missing
  else if r.text.toList.any (·.toNat = 0) then some .badName
  else if maxRouteSize < r.text.utf8ByteSize then some .nameTooLong
  else none

def entriesAt (d : Disk) (way : FileTree.Way) : Except FileFault FileTree.Entries :=
  match d.root.find? way with
  | some (.folder es) => .ok es
  | some (.file _) => .error .notFolder
  | none => .error .missing

def step (d : Disk) (way : FileTree.Way) (part : String) : Except FileFault FileTree.Way := do
  let es ← d.entriesAt way
  if Route.isIdle part then pure way
  else if part = ".." then pure way.dropLast
  else if maxNameSize < part.utf8ByteSize then throw .nameTooLong
  else if (FileTree.child? es part).isSome then pure (way ++ [part])
  else throw .missing

def walk (d : Disk) (r : Route) (parts : List String) : Except FileFault FileTree.Way :=
  match routeFault? r with
  | some fault => .error fault
  | none => parts.foldlM d.step (if r.fromRoot then [] else d.here)

def locate (d : Disk) (r : Route) : Except FileFault FileTree.Way := d.walk r r.parts

def find? (d : Disk) (r : Route) : Option FileTree :=
  (d.locate r).toOption.bind fun way => d.root.find? way

def has (d : Disk) (r : Route) : Bool := (d.find? r).isSome

def isFolder (d : Disk) (r : Route) : Bool :=
  match d.find? r with
  | some (.folder _) => true
  | _ => false

def read (d : Disk) (r : Route) : Except FileFault String := do
  match d.root.find? (← d.locate r) with
  | some (.file text) => pure text
  | some (.folder _) => throw .isFolder
  | none => throw .missing

/-- A place for an entry: its folder, what is in it, and the name of the entry. -/
structure Site where
  folder : FileTree.Way
  entries : FileTree.Entries
  name : String

/-- The place to which parts of a route lead, whether something is there or not. A place has a name
of its own; points do not tell one. -/
def site (d : Disk) (r : Route) (parts : List String) : Except FileFault Site := do
  let way ← d.walk r parts.dropLast
  let es ← d.entriesAt way
  let name := parts.getLastD ""
  if !Route.isName name then throw .present
  else if maxNameSize < name.utf8ByteSize then throw .nameTooLong
  else pure ⟨way, es, name⟩

def Site.content? (s : Site) : Option FileTree := FileTree.child? s.entries s.name

def put (d : Disk) (s : Site) (t : FileTree) : Disk :=
  { d with root := d.root.adjust (FileTree.putChild · s.name t) s.folder }

def drop (d : Disk) (s : Site) : Disk :=
  { d with root := d.root.adjust (FileTree.dropChild · s.name) s.folder }

def write (d : Disk) (r : Route) (text : String) : Except FileFault Disk := do
  let s ← d.site r r.parts
  match s.content? with
  | some (.folder _) => throw .isFolder
  | _ => pure (d.put s (.file text))

def rename (d : Disk) (source target : Route) : Except FileFault Disk := do
  let s ← d.site source source.parts
  let t ← d.site target target.parts
  match s.content?, t.content? with
  | none, _ => throw .missing
  | some _, some (.folder _) => throw .isFolder
  | some content, _ => pure ((d.drop s).put t content)

def makeFolder (d : Disk) (r : Route) : Except FileFault Disk := do
  let s ← d.site r r.folderParts
  match s.content? with
  | some _ => throw .present
  | none => pure (d.put s (.folder []))

def ensureFolder (d : Disk) (r : Route) : Except FileFault Disk :=
  match d.makeFolder r with
  | .ok d => .ok d
  | .error fault => if d.isFolder r then .ok d else .error fault

/-- Makes a folder, and before it those above it while they are missing. Each route leads to the
folder that holds the end of the one before. What was made before a failure stays. -/
def makeFolders (d : Disk) : List Route → Except FileFault Unit × Disk
  | [] => (.ok (), d)
  | r :: above =>
    match d.ensureFolder r with
    | .ok d => (.ok (), d)
    | .error .missing =>
      match d.makeFolders above with
      | (.error fault, d) => (.error fault, d)
      | (.ok (), d) =>
        match d.ensureFolder r with
        | .ok d => (.ok (), d)
        | .error fault => (.error fault, d)
    | .error fault => (.error fault, d)

end Disk

end Clientele
