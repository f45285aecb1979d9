import Clientele.Command.Run
import Clientele.Proofs.Command.Files
import Clientele.Proofs.Crm.Alike

/-!
Sessions that are alike: they have the same files and books that are alike. A request has the same
answer in both, and leaves the same files.
-/
set_option autoImplicit false

namespace Clientele

open Command (Error)

/-- A body of which every object that a document is made from can be stored. -/
structure Json.IsBody (body : Json) : Prop where
  fields : ∀ fs : Fields, body = .obj fs → fs.HoldStorable
  items : ∀ values, body = .arr values → ∀ fs : Fields, .obj fs ∈ values → fs.HoldStorable

def Task.writesInput : Task → Bool
  | .create .. | .update .. => true
  | _ => false

theorem Crm.mem_catalog_of_entity? {name : String} {e : Crm.Entity} (h : Crm.entity? name = some e) :
    e ∈ Crm.catalog := List.mem_of_find?_eq_some h

namespace Session

open Crm (Book)

variable {files : List String} {s s' : Session}

structure Alike (files : List String) (s s' : Session) : Prop where
  config : s'.config = s.config
  disk : s'.disk = s.disk
  book : Book.Alike files s.config.auditLog.isSome s.book s'.book

structure Same (files : List String) (r r' : Except Error Json × Session) : Prop where
  answer : r'.1 = r.1
  session : Alike files r.2 r'.2

theorem Alike.withBook (h : Alike files s s') {b b' : Book}
    (hb : Book.Alike files s.config.auditLog.isSome b b') :
    Alike files { s with book := b } { s' with book := b' } := ⟨h.config, h.disk, hb⟩

theorem Alike.writeJournal (h : Alike files s s') :
    Except.Agree (Alike files) s.writeJournal s'.writeJournal := by
  unfold Session.writeJournal
  rw [h.config, h.disk, h.book.trail]
  split
  · split
    · exact .ok ⟨rfl, rfl, h.book⟩
    · exact .error _
  · exact .ok h

theorem Alike.saveStore (h : Alike files s s') :
    s'.saveStore.1 = s.saveStore.1 ∧ Alike files s.saveStore.2 s'.saveStore.2 := by
  have hsave : s'.book.store.save s'.config.dataDir s'.disk =
      s.book.store.save s.config.dataDir s.disk := by
    rw [h.config, h.disk, h.book.store.save]
  unfold Session.saveStore
  rw [hsave]
  split
  · exact ⟨rfl, h.config, rfl, h.book⟩
  · refine ⟨rfl, h.config, rfl, ?_⟩
    exact ⟨h.book.store, h.book.restored, h.book.clock, h.book.trail, h.book.supply⟩

theorem Alike.persistThen (h : Alike files s s') (answer : Except Error Json) :
    Same files (s.persistThen answer) (s'.persistThen answer) := by
  have hpersist : s'.persist.1 = s.persist.1 ∧ Alike files s.persist.2 s'.persist.2 := by
    have hjournal := h.writeJournal
    unfold Session.persist
    generalize s.writeJournal = w at hjournal
    generalize s'.writeJournal = w' at hjournal
    cases hjournal with
    | error e => exact ⟨rfl, h⟩
    | ok halike => exact halike.saveStore
  unfold Session.persistThen
  rcases hp : s.persist with ⟨result, t⟩
  rcases hp' : s'.persist with ⟨result', t'⟩
  rw [hp, hp'] at hpersist
  obtain ⟨hresult, halike⟩ := hpersist
  cases hresult
  cases result with
  | error e => exact ⟨rfl, halike⟩
  | ok u => exact ⟨rfl, halike⟩

/-- What a command does in sessions that are alike: it answers and leaves the documents and the
trail as they are, or it goes on to write the files. -/
inductive Together (files : List String) (s s' : Session) :
    Except Error Json × Session → Except Error Json × Session → Prop
  | read (answer : Except Error Json) {b b' : Book}
      (hb : Book.Alike files s.config.auditLog.isSome b b') (hstore : b.store = s.book.store)
      (htrail : b.trail = s.book.trail) :
      Together files s s' (answer, { s with book := b }) (answer, { s' with book := b' })
  | written (answer : Except Error Json) {b b' : Book}
      (hb : Book.Alike files s.config.auditLog.isSome b b') :
      Together files s s' (persistThen { s with book := b } answer)
        (persistThen { s' with book := b' } answer)

theorem Together.same (h : Alike files s s') {r r' : Except Error Json × Session}
    (hr : Together files s s' r r') : Same files r r' := by
  cases hr with
  | read answer hb => exact ⟨rfl, h.withBook hb⟩
  | written answer hb => exact (h.withBook hb).persistThen answer

namespace Alike

theorem stay (h : Alike files s s') (answer : Except Error Json) :
    Together files s s' (answer, s) (answer, s') := .read answer h.book rfl rfl

theorem onBody (h : Alike files s s') (body : Option Json)
    {f f' : Json → Except Error Json × Session}
    (hf : ∀ v, body = some v → Together files s s' (f v) (f' v)) :
    Together files s s' (s.onBody body f) (s'.onBody body f') := by
  cases body with
  | none => exact h.stay _
  | some v => exact hf v rfl

theorem onEntity (h : Alike files s s') (name : String)
    {f f' : Crm.Entity → Except Error Json × Session}
    (hf : ∀ e ∈ Crm.catalog, Together files s s' (f e) (f' e)) :
    Together files s s' (s.onEntity name f) (s'.onEntity name f') := by
  unfold Session.onEntity
  split
  · exact h.stay _
  · rename_i e he
    exact hf e (Crm.mem_catalog_of_entity? he)

theorem readQuery (h : Alike files s s') (body : Json) :
    ∃ answer b b', s.readQuery body = (answer, { s with book := b }) ∧
      s'.readQuery body = (answer, { s' with book := b' }) ∧
      Book.Alike files s.config.auditLog.isSome b b' ∧
      b.store = s.book.store ∧ b.trail = s.book.trail := by
  unfold Session.readQuery
  cases Query.Request.ofJson? body with
  | none => exact ⟨_, s.book, s'.book, rfl, rfl, h.book, rfl, rfl⟩
  | some r =>
    obtain ⟨hanswer, hbook⟩ := h.book.accept (r.read s.settings.policy)
    obtain ⟨log, hlog⟩ := Book.accept_eq s.book (r.read s.settings.policy)
    have hpolicy : s'.settings.policy = s.settings.policy := by
      rw [Session.settings, Session.settings, h.config]
    simp only [Session.withBook, Book.readRequest, hpolicy, hanswer]
    exact ⟨_, _, _, rfl, rfl, hbook, by rw [hlog], by rw [hlog]⟩

theorem query (h : Alike files s s') (e : Crm.Entity) (body : Json) :
    Together files s s' (s.query e body) (s'.query e body) := by
  obtain ⟨answer, b, b', hread, hread', hb, hstore, htrail⟩ := h.readQuery body
  unfold Session.query
  rw [hread, hread']
  cases answer with
  | error err => exact .read _ hb hstore htrail
  | ok q =>
    obtain ⟨hanswer, hbook⟩ := hb.find s.settings e q
    obtain ⟨counters, log, hfind⟩ := Book.find_eq b s.settings e q
    have hsettings : Session.settings { s' with book := b' } = s.settings := by
      rw [Session.settings, Session.settings, h.config]
    have hsettings' : Session.settings { s with book := b } = s.settings := rfl
    simp only [Session.withBook, hsettings, hsettings', hanswer]
    exact .read _ hbook (by rw [hfind, hstore]) (by rw [hfind, htrail])

theorem compile (h : Alike files s s') (e : Crm.Entity) (body : Json) :
    Together files s s' (s.compile e body) (s'.compile e body) := by
  obtain ⟨answer, b, b', hread, hread', hb, hstore, htrail⟩ := h.readQuery body
  unfold Session.compile
  rw [hread, hread']
  cases answer with
  | error err => exact .read _ hb hstore htrail
  | ok q =>
    have hsettings : Session.settings { s' with book := b' } =
        Session.settings { s with book := b } := by
      rw [Session.settings, Session.settings, h.config]
    simp only [hsettings]
    exact .read _ hb hstore htrail

theorem create (h : Alike files s s') {e : Crm.Entity} (he : e ∈ Crm.catalog) {body : Json}
    (hbody : body.IsBody) (user : Identifier) :
    Together files s s' (s.create e body user) (s'.create e body user) := by
  unfold Session.create
  split
  · rename_i values
    obtain ⟨hanswer, hbook⟩ := h.book.createMany he (hbody.items values rfl) user
    simp only [Session.withBook, hanswer]
    exact .written _ hbook
  · obtain ⟨hanswer, hbook⟩ := h.book.createOne he hbody.fields user
    simp only [Session.withBook, hanswer]
    exact .written _ hbook

theorem update (h : Alike files s s') {e : Crm.Entity} (he : e ∈ Crm.catalog) (id : Identifier)
    {body : Json} (hbody : body.IsBody) (user : Identifier) :
    Together files s s' (s.update e id body user) (s'.update e id body user) := by
  obtain ⟨hanswer, hbook⟩ := h.book.updateOne he id hbody.fields user
  simp only [Session.update, Session.withBook, hanswer]
  cases hr : (s.book.updateOne e id body user).1 with
  | ok m => exact .written _ hbook
  | error err =>
    have hkept : (s.book.updateOne e id body user).2 = s.book := by
      rcases s.book.updateOne_cases e id body user with ⟨err', hrun⟩ |
        ⟨fields, previous, store, log, -, -, -, -, hrun⟩
      · rw [hrun]
      · rw [hrun] at hr
        cases hr
    exact .read _ hbook (by rw [hkept]) (by rw [hkept])

theorem delete (h : Alike files s s') {e : Crm.Entity} (he : e ∈ Crm.catalog) (id : Identifier) :
    Together files s s' (s.delete e id) (s'.delete e id) := by
  obtain ⟨hanswer, hbook⟩ := h.book.deleteOne he id
  simp only [Session.delete, Session.withBook, hanswer]
  cases hr : (s.book.deleteOne e id).1 with
  | ok node => exact .written _ hbook
  | error err =>
    have hkept : (s.book.deleteOne e id).2 = s.book := by
      rcases s.book.deleteOne_cases e id with ⟨err', hrun⟩ | ⟨node, store, log, -, -, hrun⟩
      · rw [hrun]
      · rw [hrun] at hr
        cases hr
    exact .read _ hbook (by rw [hkept]) (by rw [hkept])

theorem audit (h : Alike files s s') (entity : Option String) (user : Option Identifier)
    (limit : Option Nat) : s'.audit entity user limit = s.audit entity user limit := by
  rw [Session.audit, Session.audit, h.book.recent]

theorem execute (h : Alike files s s') {task : Task} {body : Option Json}
    (hbody : task.writesInput → ∀ v, body = some v → v.IsBody) :
    Together files s s' (s.execute task body) (s'.execute task body) := by
  cases task with
  | query name => exact h.onBody body fun v _ => h.onEntity name fun e _ => h.query e v
  | compile name => exact h.onBody body fun v _ => h.onEntity name fun e _ => h.compile e v
  | get name id =>
    refine h.onEntity name fun e _ => ?_
    rw [h.book.findOne]
    exact h.stay _
  | create name user =>
    exact h.onBody body fun v hv => h.onEntity name fun e he => h.create he (hbody rfl v hv) user
  | update name id user =>
    exact h.onBody body fun v hv => h.onEntity name fun e he => h.update he id (hbody rfl v hv) user
  | delete name id => exact h.onEntity name fun e he => h.delete he id
  | audit entity user limit =>
    simp only [Session.execute, h.audit]
    exact h.stay _

end Alike

end Session

end Clientele
