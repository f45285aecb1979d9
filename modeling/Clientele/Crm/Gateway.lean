import Clientele.Crm.Book
import Clientele.Crm.Entity
import Clientele.Crm.Pricing
import Clientele.Query.Execute
import Clientele.Query.Request

/-!
Reading and writing entities. Every write is checked before anything is changed, stamps the document
with its author and time, is counted and reported, and is then recorded in the trail; a record that
cannot be written does not undo it.
-/
set_option autoImplicit false

namespace Clientele.Crm

inductive Error where
  | notFound (entity : String) (id : Identifier)
  | unknownEntity (name : String)
  | keyInPayload
  | payloadNotObject
  | readOnly (entity : String)
  | query (e : Query.Error)
  | store (e : Store.InsertError)
  | audit (e : Audit.Error)

def Error.code : Error → String
  | .notFound .. => "CRM_GATEWAY_NOT_FOUND"
  | .unknownEntity _ => "CRM_GATEWAY_UNKNOWN_ENTITY"
  | .keyInPayload | .payloadNotObject => "CRM_GATEWAY_INVALID_PAYLOAD"
  | .readOnly _ => "CRM_GATEWAY_READ_ONLY"
  | .query e => e.code
  | .store e => e.code
  | .audit e => e.code

def Error.message : Error → String
  | .notFound entity id => s!"{entity} {id.text} not found"
  | .unknownEntity name => s!"unknown entity '{name}'"
  | .keyInPayload => "invalid payload: primary key is assigned by the gateway"
  | .payloadNotObject => "invalid payload: expected an object"
  | .readOnly entity => s!"entity '{entity}' is read-only"
  | .query e => e.message
  | .store e => e.message
  | .audit e => e.message

structure Settings where
  policy : Filter.Policy
  maxLimit : Nat

def Settings.standard : Settings := ⟨.strict, 1000⟩

/-- A written document, and what came of recording it where it was to be recorded. -/
structure Mutation where
  node : Fields
  audit : Option (Except Audit.Error Audit.Record)

def Mutation.toJson (m : Mutation) : Json :=
  .obj [("node", .obj m.node), ("audit",
    match m.audit with
    | none => .null
    | some (.ok r) => r.toJson
    | some (.error e) =>
      .obj [("error", .obj [("code", .str e.code), ("message", .str e.message)])])]

def Book.reportIgnored (b : Book) (ignored : List Filter.Ignored) : Book :=
  ignored.foldl (fun b i =>
    b.report .filterOperatorIgnored [("field", i.field.text), ("operator", i.operator)]) b

def Book.accept {α : Type} (b : Book) (r : Filter.Reading α) : Except Error α × Book :=
  (r.outcome.mapError fun e => .query (.filter e), b.reportIgnored r.ignored)

def Book.readRequest (b : Book) (settings : Settings) (r : Query.Request) :
    Except Error Query.Criteria × Book :=
  b.accept (r.read settings.policy)

def Book.readFilter (b : Book) (settings : Settings) (v : Json) :
    Except Error (Option Filter.Tree) × Book :=
  b.accept (Filter.read settings.policy v)

def planOf (settings : Settings) (e : Entity) (q : Query.Criteria) : Except Error Query.Plan :=
  (Query.plan q e.relations settings.maxLimit).mapError .query

def Book.find (b : Book) (settings : Settings) (e : Entity) (q : Query.Criteria) :
    Except Error Query.Connection × Book :=
  match Query.execute b.store e.collection q e.relations settings.maxLimit with
  | .ok c =>
    (.ok c, (b.report .queryExecuted [("collection", e.collection),
      ("rows", toString c.nodes.length), ("total", toString c.totalCount)]).count fun n =>
        { n with queriesExecuted := n.queriesExecuted + 1
                 rowsReturned := n.rowsReturned + c.nodes.length })
  | .error err =>
    (.error (.query err), (b.report .queryRejected [("code", err.code),
      ("collection", e.collection), ("reason", err.message)]).count fun n =>
        { n with queriesRejected := n.queriesRejected + 1 })

def hasId (id : Identifier) : Filter.Predicate :=
  .field (.ofText Path.primaryKey) (.some (.eq (.id id)))

def Book.findOne (b : Book) (e : Entity) (id : Identifier) : Option Json :=
  (b.store.aggregate e.collection (e.relations ++ [.filter (hasId id), .limit 1])).head?

def Book.matchingIds (b : Book) (e : Entity) (filter : Option Filter.Tree) :
    Except Error (List Identifier) :=
  match Filter.compileOptional filter with
  | .error err => .error (.query (.filter err))
  | .ok p =>
    .ok ((b.store.aggregate e.collection (Query.selection e.relations p)).filterMap fun row =>
      (row.get? Path.primaryKey).bind Identifier.ofJson?)

def writable (e : Entity) : Except Error Unit :=
  if e.readOnly then .error (.readOnly e.name) else .ok ()

def payload : Json → Except Error Fields
  | .obj fields =>
    if Fields.has fields Path.primaryKey || Fields.has fields "id" then .error .keyInPayload
    else .ok fields
  | _ => .error .payloadNotObject

def newDocument (e : Entity) (id userId : Identifier) (time : Time.Instant) (values : Fields) :
    Fields :=
  let named := Fields.overlay [(Path.primaryKey, id.toJson)] (Audit.implied e.defaults values)
  (((named.overlay values).set "createdById" userId.toJson).set "createdAt"
    (.str time.millis)).set "updatedAt" (.str time.millis)

def Book.reportWrite (b : Book) (event : Telemetry.Event) (e : Entity) (id userId : Identifier) :
    Book :=
  b.report event [("entity", e.name), ("id", id.text), ("user_id", userId.text)]

def Book.recordIfAudited (b : Book) (e : Entity) (id : Identifier) (changes : List Audit.Change)
    (userId : Identifier) (action : Audit.Action) :
    Option (Except Audit.Error Audit.Record) × Book :=
  if e.audited then
    let (result, b) := b.record e.auditName id changes userId action
    (some result, b)
  else (none, b)

def Book.insert (b : Book) (e : Entity) (values : Fields) (userId : Identifier) :
    Except Error Mutation × Book :=
  let (id, b) := b.freshId
  let (time, b) := b.now
  let doc := newDocument e id userId time values
  match b.store.insert e.collection (.obj doc) with
  | (.error err, store) => (.error (.store err), { b with store := store })
  | (.ok (), store) =>
    let b := ({ b with store := store }.count fun c =>
      { c with entitiesCreated := c.entitiesCreated + 1 }).reportWrite .entityCreated e id userId
    let changes := Audit.changesWithDefaults e.publicFields e.defaults values
    let (audit, b) := b.recordIfAudited e id changes userId .create
    (.ok ⟨doc, audit⟩, b)

def Book.createOne (b : Book) (e : Entity) (values : Json) (userId : Identifier) :
    Except Error Mutation × Book :=
  match writable e, payload values with
  | .error err, _ => (.error err, b)
  | .ok (), .error err => (.error err, b)
  | .ok (), .ok values => b.insert e values userId

/-- Does something for each item in turn, until it fails. -/
def Book.each {α β : Type} (f : Book → α → Except Error β × Book) :
    Book → List α → Except Error (List β) × Book
  | b, [] => (.ok [], b)
  | b, x :: xs =>
    match f b x with
    | (.error e, b) => (.error e, b)
    | (.ok y, b) =>
      let (ys, b) := Book.each f b xs
      (ys.map (y :: ·), b)

/-- All payloads are checked before the first document is written. -/
def Book.createMany (b : Book) (e : Entity) (values : List Json) (userId : Identifier) :
    Except Error (List Mutation) × Book :=
  match writable e, values.mapM payload with
  | .error err, _ => (.error err, b)
  | .ok (), .error err => (.error err, b)
  | .ok (), .ok payloads => b.each (fun b values => b.insert e values userId) payloads

/-- Empty strings in a patch ask for nothing. -/
def withoutBlanks (patch : Fields) : Fields :=
  patch.filter fun f =>
    match f.2 with
    | .str s => s != ""
    | _ => true

/-- The patch as it is recorded: without blanks, and priced where that applies. -/
def effectivePatch (e : Entity) (previous patch : Fields) : Fields :=
  let patch := withoutBlanks patch
  if e.pricing then priced (some (.obj previous)) patch else patch

def stamped (patch : Fields) (userId : Identifier) (time : Time.Instant) : Fields :=
  (patch.set "updatedById" userId.toJson).set "updatedAt" (.str time.millis)

def Book.patch (b : Book) (e : Entity) (id : Identifier) (previous patch : Fields)
    (userId : Identifier) : Except Error Mutation × Book :=
  let patch := effectivePatch e previous patch
  let changes := Audit.changesOnUpdate e.publicFields (some (.obj previous)) patch
  let (time, b) := b.now
  match b.store.update e.collection id (stamped patch userId time) with
  | (none, _) => (.error (.notFound e.name id), b)
  | (some node, store) =>
    let b := ({ b with store := store }.count fun c =>
      { c with entitiesUpdated := c.entitiesUpdated + 1 }).reportWrite .entityUpdated e id userId
    let (audit, b) := b.recordIfAudited e id changes userId .update
    (.ok ⟨node, audit⟩, b)

def Book.updateOne (b : Book) (e : Entity) (id : Identifier) (patch : Json) (userId : Identifier) :
    Except Error Mutation × Book :=
  match writable e, payload patch with
  | .error err, _ => (.error err, b)
  | .ok (), .error err => (.error err, b)
  | .ok (), .ok patch =>
    match b.store.get? e.collection id with
    | none => (.error (.notFound e.name id), b)
    | some previous => b.patch e id previous patch userId

def Book.updateMany (b : Book) (e : Entity) (filter : Option Filter.Tree) (patch : Json)
    (userId : Identifier) : Except Error (List Mutation) × Book :=
  match writable e, b.matchingIds e filter with
  | .error err, _ => (.error err, b)
  | .ok (), .error err => (.error err, b)
  | .ok (), .ok ids => b.each (fun b id => b.updateOne e id patch userId) ids

/-- Removes a document. The trail keeps what it knows about it. -/
def Book.deleteOne (b : Book) (e : Entity) (id : Identifier) : Except Error Fields × Book :=
  match writable e with
  | .error err => (.error err, b)
  | .ok () =>
    match b.store.delete e.collection id with
    | (none, _) => (.error (.notFound e.name id), b)
    | (some node, store) =>
      (.ok node, ({ b with store := store }.count fun c =>
        { c with entitiesDeleted := c.entitiesDeleted + 1 }).report .entityDeleted
          [("entity", e.name), ("id", id.text)])

def Book.deleteMany (b : Book) (e : Entity) (filter : Option Filter.Tree) :
    Except Error (List Fields) × Book :=
  match writable e, b.matchingIds e filter with
  | .error err, _ => (.error err, b)
  | .ok (), .error err => (.error err, b)
  | .ok (), .ok ids => b.each (fun b id => b.deleteOne e id) ids

end Clientele.Crm
