import Clientele.Command.Basic
import Clientele.Config
import Clientele.Crm.Catalog
import Clientele.Crm.Gateway
import Clientele.Store.Snapshot

/-!
Sessions. A session begins with a configuration: the store is loaded from its folder, and the trail
is replayed from its journal or found in the store. Commands then run one after another, and those
that write leave the files as the next session needs them.
-/
set_option autoImplicit false

namespace Clientele

inductive Command.Error where
  | config (e : Config.Error)
  | snapshot (e : Store.SnapshotError)
  | trail (e : Audit.Error)
  | crm (e : Crm.Error)
  | emptyInput
  | malformedInput
  | noInput

structure Session where
  config : Config
  book : Crm.Book
  disk : Disk

namespace Session

open Command (Error)

def loadStore (c : Config) (disk : Disk) :
    Except Store.SnapshotError (Store × List Telemetry.Entry) :=
  (Store.load c.dataDir disk).map fun l =>
    (l.store, match l.snapshots with
      | none => []
      | some n => [⟨.storeLoaded, [("collections", toString n), ("data_dir", c.dataDir.text),
          ("documents", toString l.store.documentCount)]⟩])

/-- The text of the journal at a route, which is made where it is missing. -/
def journalText (route : Route) (disk : Disk) : Except FileFault String × Disk :=
  match disk.makeFolders route.above with
  | (.error fault, disk) => (.error fault, disk)
  | (.ok (), disk) =>
    if disk.has route then (disk.read route, disk)
    else
      match disk.write route "" with
      | .error fault => (.error fault, disk)
      | .ok disk => (.ok "", disk)

def replayJournal (route : Route) (disk : Disk) :
    Except Audit.Error (Audit.Trail × List Telemetry.Entry) × Disk :=
  match journalText route disk with
  | (.error fault, disk) => (.error (.unwritable route.text fault.message), disk)
  | (.ok text, disk) =>
    ((Audit.readJournal text.toList).map fun records =>
      (.journal records text.toList, [⟨.auditJournalReplayed,
        [("entries", toString (Audit.entryCount text.toList)), ("path", route.text),
          ("records", toString records.length)]⟩]), disk)

/-- The trail of a configuration: without a journal it is in the store. -/
def openTrail (c : Config) (disk : Disk) :
    Except Audit.Error (Audit.Trail × List Telemetry.Entry) × Disk :=
  match c.auditLog with
  | none => (.ok (.documents, []), disk)
  | some route => replayJournal route disk

/-- A session that could not begin: why, what was reported until then, and the disk. -/
structure Failure where
  error : Error
  log : List Telemetry.Entry
  disk : Disk

def start (c : Config) (disk : Disk) (supply : Crm.Supply) : Except Failure Session :=
  match loadStore c disk with
  | .error e => .error ⟨.snapshot e, [], disk⟩
  | .ok (store, loaded) =>
    match openTrail c disk with
    | (.error e, disk) => .error ⟨.trail e, loaded, disk⟩
    | (.ok (trail, replayed), disk) =>
      .ok ⟨c, ⟨store, trail, .zero, loaded ++ replayed, supply⟩, disk⟩

def settings (s : Session) : Crm.Settings := ⟨s.config.policy, s.config.maxLimit⟩

def withBook {α : Type} (s : Session) (f : Crm.Book → Except Crm.Error α × Crm.Book) :
    Except Error α × Session :=
  let (result, book) := f s.book
  (result.mapError .crm, { s with book := book })

def writeJournal (s : Session) : Except Error Session :=
  match s.config.auditLog, s.book.trail with
  | some route, .journal _ text =>
    match s.disk.write route (.ofList text) with
    | .ok disk => .ok { s with disk := disk }
    | .error fault => .error (.trail (.unwritable route.text fault.message))
  | _, _ => .ok s

def saveStore (s : Session) : Except Error Unit × Session :=
  match s.book.store.save s.config.dataDir s.disk with
  | (.error e, disk) => (.error (.snapshot e), { s with disk := disk })
  | (.ok (), disk) =>
    (.ok (), { s with
      disk := disk
      book := s.book.report .storeSaved
        [("collections", toString s.book.store.collections.length),
          ("data_dir", s.config.dataDir.text)] })

def persist (s : Session) : Except Error Unit × Session :=
  match s.writeJournal with
  | .error e => (.error e, s)
  | .ok s => s.saveStore

def persistThen (s : Session) (answer : Except Error Json) : Except Error Json × Session :=
  match s.persist with
  | (.error e, s) => (.error e, s)
  | (.ok (), s) => (answer, s)

def readQuery (s : Session) (body : Json) : Except Error Query.Criteria × Session :=
  match Query.Request.ofJson? body with
  | none => (.error .malformedInput, s)
  | some r => s.withBook fun b => b.readRequest s.settings r

def query (s : Session) (e : Crm.Entity) (body : Json) : Except Error Json × Session :=
  match s.readQuery body with
  | (.error err, s) => (.error err, s)
  | (.ok q, s) =>
    let (result, s) := s.withBook fun b => b.find s.settings e q
    (result.map fun c => c.toJson, s)

def compile (s : Session) (e : Crm.Entity) (body : Json) : Except Error Json × Session :=
  match s.readQuery body with
  | (.error err, s) => (.error err, s)
  | (.ok q, s) => (((Crm.planOf s.settings e q).mapError .crm).map fun p => p.toJson, s)

/-- Creates one document, or those of a list. What was written before a failure is kept. -/
def create (s : Session) (e : Crm.Entity) (body : Json) (user : Identifier) :
    Except Error Json × Session :=
  match body with
  | .arr values =>
    let (result, s) := s.withBook fun b => b.createMany e values user
    s.persistThen (result.map fun ms => .arr (ms.map Crm.Mutation.toJson))
  | values =>
    let (result, s) := s.withBook fun b => b.createOne e values user
    s.persistThen (result.map Crm.Mutation.toJson)

def update (s : Session) (e : Crm.Entity) (id : Identifier) (body : Json) (user : Identifier) :
    Except Error Json × Session :=
  match s.withBook fun b => b.updateOne e id body user with
  | (.error err, s) => (.error err, s)
  | (.ok m, s) => s.persistThen (.ok m.toJson)

def delete (s : Session) (e : Crm.Entity) (id : Identifier) : Except Error Json × Session :=
  match s.withBook fun b => b.deleteOne e id with
  | (.error err, s) => (.error err, s)
  | (.ok node, s) => s.persistThen (.ok (.obj node))

/-- The name under which changes of an entity are recorded; a name that is no entity's stands for
itself. -/
def auditNameOf (name : String) : String := (Crm.entity? name).elim name (·.auditName)

def audit (s : Session) (entity : Option String) (user : Option Identifier) (limit : Option Nat) :
    Except Error Json :=
  match s.book.recent ⟨entity.map auditNameOf, user, limit⟩ with
  | .error e => .error (.trail e)
  | .ok rs => .ok (.obj [("nodes", .arr (rs.map Audit.Record.toJson)), ("totalCount", .ofNat rs.length)])

def onEntity (s : Session) (name : String) (f : Crm.Entity → Except Error Json × Session) :
    Except Error Json × Session :=
  match Crm.entity? name with
  | none => (.error (.crm (.unknownEntity name)), s)
  | some e => f e

def onBody (s : Session) (body : Option Json) (f : Json → Except Error Json × Session) :
    Except Error Json × Session :=
  match body with
  | none => (.error .noInput, s)
  | some body => f body

def execute (s : Session) (task : Task) (body : Option Json) : Except Error Json × Session :=
  match task with
  | .query entity => s.onBody body fun body => s.onEntity entity fun e => s.query e body
  | .compile entity => s.onBody body fun body => s.onEntity entity fun e => s.compile e body
  | .get entity id =>
    s.onEntity entity fun e => (.ok (Json.orNull (s.book.findOne e id)), s)
  | .create entity user =>
    s.onBody body fun body => s.onEntity entity fun e => s.create e body user
  | .update entity id user =>
    s.onBody body fun body => s.onEntity entity fun e => s.update e id body user
  | .delete entity id => s.onEntity entity fun e => s.delete e id
  | .audit entity user limit => (s.audit entity user limit, s)

end Session

end Clientele
