import Clientele.Store.Collection
import Clientele.Query.Stage

/-!
A store of named collections. A collection exists from the first attempt to insert into it.
-/
set_option autoImplicit false

namespace Clientele

structure Store where
  collections : List (String × Store.Collection)

namespace Store

def empty : Store := ⟨[]⟩

def collection? (s : Store) (name : String) : Option Collection :=
  (s.collections.find? (·.1 == name)).map (·.2)

def collection (s : Store) (name : String) : Collection := (s.collection? name).getD .empty

def put (s : Store) (name : String) (c : Collection) : Store :=
  if (s.collection? name).isSome then
    ⟨s.collections.map fun p => if p.1 == name then (name, c) else p⟩
  else ⟨s.collections ++ [(name, c)]⟩

def rows (s : Store) (name : String) : List Json := (s.collection name).rows

/-- Adds a document. A failure leaves the documents alone, but the collection is there then. -/
def insert (s : Store) (name : String) (doc : Json) : Except InsertError Unit × Store :=
  match (s.collection name).insert name doc with
  | .ok c => (.ok (), s.put name c)
  | .error e => (.error e, s.put name (s.collection name))

def get? (s : Store) (name : String) (id : Identifier) : Option Fields := (s.collection name).get? id

def update (s : Store) (name : String) (id : Identifier) (patch : Fields) : Option Fields × Store :=
  match (s.collection name).update id patch with
  | some (doc, c) => (some doc, s.put name c)
  | none => (none, s)

def delete (s : Store) (name : String) (id : Identifier) : Option Fields × Store :=
  match (s.collection name).delete id with
  | some (doc, c) => (some doc, s.put name c)
  | none => (none, s)

def aggregate (s : Store) (name : String) (p : Query.Pipeline) : List Json := p.run s.rows (s.rows name)

def countAll (s : Store) (name : String) : Nat := (s.collection name).documents.length

def sortedNames (names : List String) : List String := names.mergeSort fun a b => a ≤ b

/-- The names of the collections that hold a document. -/
def names (s : Store) : List String :=
  sortedNames ((s.collections.filter fun p => !p.2.documents.isEmpty).map (·.1))

/-- Inserts documents until one is refused. -/
def insertAll (s : Store) (name : String) : List Json → Except InsertError Store
  | [] => .ok s
  | doc :: docs =>
    match s.insert name doc with
    | (.ok (), s) => s.insertAll name docs
    | (.error e, _) => .error e

end Store

end Clientele
