import Clientele.Audit.Journal
import Clientele.Store.Basic

/-!
Where audit records are kept: in memory, in a journal, or as documents of a collection in the store
itself. One kind of trail refuses every write, and one refuses some of them.
-/
set_option autoImplicit false

namespace Clientele.Audit

def auditCollection : String := "audits"

inductive Trail where
  | memory (records : List Record)
  /-- The records and the text of the journal, which every write makes longer. -/
  | journal (records : List Record) (text : List Char)
  | documents
  | failing
  /-- The records, and which of the next writes fail; behind the last of them none does. -/
  | faulty (records : List Record) (faults : List Bool)

inductive Error where
  | notFound (id : Identifier)
  | unwritable (path reason : String)
  | corrupted (line : Nat) (fault : LineFault)
  | malformedRecord
  | store (e : Store.InsertError)

def Error.code : Error → String
  | .notFound _ => "CRM_AUDIT_NOT_FOUND"
  | .unwritable .. => "CRM_AUDIT_IO"
  | .corrupted .. | .malformedRecord => "CRM_AUDIT_CORRUPTION"
  | .store e => e.code

def Error.message : Error → String
  | .notFound id => s!"audit record {id.text} not found"
  | .unwritable path reason => s!"audit journal I/O failed for {path}: {reason}"
  | .corrupted line fault => s!"audit journal corrupted at line {line}: {fault.message}"
  | .malformedRecord => "audit record serialization failed"
  | .store e => e.message

def Error.diskFull : Error := .unwritable "audit.log" "disk full"

/-- A record as a document: its identifier is the primary key. The last field takes the place of
the identifier. -/
def Record.toDocument (r : Record) : Fields :=
  (r.toFields.takeOut "id").set Path.primaryKey r.id.toJson

def Record.ofDocument? (doc : Fields) : Option Record :=
  Record.ofJson? (.obj (match doc.get? Path.primaryKey with
    | some id => (doc.takeOut Path.primaryKey).set "id" id
    | none => doc))

def readDocument (doc : Fields) : Except Error Record :=
  (Record.ofDocument? doc).elim (.error .malformedRecord) .ok

namespace Trail

def records (t : Trail) (s : Store) : Except Error (List Record) :=
  match t with
  | memory rs => .ok rs
  | journal rs _ => .ok rs
  | documents => (s.collection auditCollection).documents.mapM readDocument
  | failing => .ok []
  | faulty rs _ => .ok rs

def get (t : Trail) (s : Store) (id : Identifier) : Except Error (Option Record) :=
  match t with
  | memory rs => .ok (lookUp rs id)
  | journal rs _ => .ok (lookUp rs id)
  | documents =>
    match s.get? auditCollection id with
    | none => .ok none
    | some doc => (readDocument doc).map some
  | failing => .ok none
  | faulty rs _ => .ok (lookUp rs id)

def insert (t : Trail) (s : Store) (r : Record) : Except Error Unit × Trail × Store :=
  match t with
  | memory rs => (.ok (), memory (rs ++ [r]), s)
  | journal rs text => (.ok (), journal (rs ++ [r]) (text ++ (Entry.record r).line), s)
  | documents =>
    match s.insert auditCollection (.obj r.toDocument) with
    | (.ok (), s) => (.ok (), documents, s)
    | (.error e, s) => (.error (.store e), documents, s)
  | failing => (.error .diskFull, failing, s)
  | faulty rs faults =>
    if faults.headD false then (.error .diskFull, faulty rs faults.tail, s)
    else (.ok (), faulty (rs ++ [r]) faults.tail, s)

def amendment (r : Record) : Fields :=
  [("changes", .arr (r.changes.map Change.toJson)), ("updatedAt", .str r.updatedAt.millis)]

def appendChange (t : Trail) (s : Store) (id : Identifier) (c : Change) (time : Time.Instant) :
    Except Error Record × Trail × Store :=
  match t with
  | memory rs =>
    match lookUp rs id, amendIn rs id c time with
    | some r, some rs => (.ok (r.amend c time), memory rs, s)
    | _, _ => (.error (.notFound id), t, s)
  | journal rs text =>
    match lookUp rs id, amendIn rs id c time with
    | some r, some rs =>
      (.ok (r.amend c time), journal rs (text ++ (Entry.amend id c time).line), s)
    | _, _ => (.error (.notFound id), t, s)
  | documents =>
    match get documents s id with
    | .error e => (.error e, t, s)
    | .ok none => (.error (.notFound id), t, s)
    | .ok (some r) =>
      let r := r.amend c time
      match s.update auditCollection id (amendment r) with
      | (some _, s) => (.ok r, t, s)
      | (none, s) => (.error (.notFound id), t, s)
  | failing => (.error (.notFound id), t, s)
  | faulty rs faults =>
    match lookUp rs id, amendIn rs id c time with
    | some r, some amended =>
      if faults.headD false then (.error .diskFull, faulty rs faults.tail, s)
      else (.ok (r.amend c time), faulty amended faults.tail, s)
    | _, _ => (.error (.notFound id), t, s)

end Trail

def readJournal (text : List Char) : Except Error (List Record) :=
  (replay text).mapError fun (line, fault) => .corrupted line fault

def openJournal (text : List Char) : Except Error Trail :=
  (readJournal text).map fun rs => .journal rs text

end Clientele.Audit
