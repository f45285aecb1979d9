import Clientele.Store.Basic
import Clientele.Files.Disk
import Clientele.Json.Reader
import Clientele.Json.Printer

/-!
Snapshots of a store: one file for each collection, named for it, with the list of its documents.
A file is written beside its old version and then put in its place.
-/
set_option autoImplicit false

namespace Clientele.Store

def snapshotEnding : List Char := ['.', 'j', 's', 'o', 'n']

/-- The collection that a file name stands for: something must precede the ending. -/
def collectionOf? (fileName : String) : Option String :=
  let cs := fileName.toList
  if snapshotEnding.isSuffixOf cs && snapshotEnding.length < cs.length then
    some (.ofList (cs.take (cs.length - snapshotEnding.length)))
  else none

inductive SnapshotError where
  | unusable (route : Route) (fault : FileFault)
  | malformed (route : Route)
  | insert (e : InsertError)

def SnapshotError.code : SnapshotError → String
  | .unusable .. | .malformed _ => "CRM_STORE_IO"
  | .insert e => e.code

def SnapshotError.message : SnapshotError → String
  | .unusable route fault => s!"store I/O failed for {route.text}: {fault.message}"
  | .malformed route => s!"store snapshot {route.text} is malformed: not a list of documents"
  | .insert e => e.message

/-- The name of a collection and its documents in a file, if the file is a snapshot. -/
structure Snapshot where
  fileName : String
  collection : String
  text : String

def snapshotsAmong (files : List (String × String)) : List Snapshot :=
  (files.filterMap fun (name, text) => (collectionOf? name).map fun c => ⟨name, c, text⟩).mergeSort
    fun a b => a.fileName ≤ b.fileName

/-- Takes a snapshot into a store. The collection is there then, even if it is empty. -/
def loadSnapshot (folder : Route) (s : Store) (snapshot : Snapshot) : Except SnapshotError Store :=
  match (Json.parse? snapshot.text).bind Json.items? with
  | none => .error (.malformed (folder.join snapshot.fileName))
  | some docs =>
    ((s.put snapshot.collection (s.collection snapshot.collection)).insertAll
      snapshot.collection docs).mapError .insert

def loadSnapshots (folder : Route) (s : Store) : List Snapshot → Except SnapshotError Store
  | [] => .ok s
  | snapshot :: rest => (loadSnapshot folder s snapshot).bind fun s => loadSnapshots folder s rest

def documentCount (s : Store) : Nat := s.collections.foldl (fun n p => n + p.2.documents.length) 0

/-- A store that was read from a folder, and the number of snapshots it was read from. Without the
folder the store is empty, and there is no such number. -/
structure Loaded where
  store : Store
  snapshots : Option Nat

def load (folder : Route) (disk : Disk) : Except SnapshotError Loaded :=
  match disk.find? folder with
  | none => .ok ⟨empty, none⟩
  | some (.file _) => .error (.unusable folder .notFolder)
  | some t =>
    let snapshots := snapshotsAmong t.filesOf
    (loadSnapshots folder empty snapshots).map fun s => ⟨s, some snapshots.length⟩

def snapshotText (c : Collection) : String := (Json.arr c.rows).indented

/-- The file name of a snapshot. In the name of a collection slashes and points lead on from the
folder of the snapshots. -/
def snapshotName (collection : String) : String := collection ++ .ofList snapshotEnding

/-- Writes a file beside its old version and puts it in its place. -/
def replaceFile (folder : Route) (name text : String) (disk : Disk) :
    Except FileFault Unit × Disk :=
  let beside := folder.join (name ++ ".tmp")
  match disk.write beside text with
  | .error fault => (.error fault, disk)
  | .ok written =>
    match written.rename beside (folder.join name) with
    | .error fault => (.error fault, written)
    | .ok renamed => (.ok (), renamed)

def saveAll (s : Store) (folder : Route) : List String → Disk → Except SnapshotError Unit × Disk
  | [], disk => (.ok (), disk)
  | collection :: rest, disk =>
    let name := snapshotName collection
    match replaceFile folder name (snapshotText (s.collection collection)) disk with
    | (.error fault, disk) => (.error (.unusable (folder.join name) fault), disk)
    | (.ok (), disk) => saveAll s folder rest disk

def save (s : Store) (folder : Route) (disk : Disk) : Except SnapshotError Unit × Disk :=
  match disk.makeFolders (folder :: folder.above) with
  | (.error fault, disk) => (.error (.unusable folder fault), disk)
  | (.ok (), disk) => saveAll s folder (sortedNames (s.collections.map (·.1))) disk

end Clientele.Store
