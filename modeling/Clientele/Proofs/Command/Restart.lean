import Clientele.Proofs.Command.Alike

/-!
A session for each request gives the same answers as one session for all of them, as long as the
bodies leave room for the list of documents that the snapshots are, and the journal is kept apart
from the snapshots. Otherwise no session may begin any more.
-/
set_option autoImplicit false

namespace Clientele

open Command (Error)
open Crm (Book)

def Audit.Trail.text? : Audit.Trail → Option (List Char)
  | .journal _ text => some text
  | _ => none

/-- Documents of which all doubles are read back from their text. -/
def Store.HasReadableNumbers (s : Store) : Prop :=
  ∀ p ∈ s.collections, ∀ doc ∈ p.2.documents, (Json.obj doc).AllNumbers Json.DoubleReads

theorem Store.HasReadableNumbers.collection {s : Store} (h : s.HasReadableNumbers) (name : String) :
    ∀ doc ∈ (s.collection name).documents, (Json.obj doc).AllNumbers Json.DoubleReads :=
  forall_documents h name

theorem Store.hasReadableNumbers_of_toNat? {s : Store}
    (h : ∀ p ∈ s.collections, ∀ doc ∈ p.2.documents,
      (Json.obj doc).AllNumbers fun n => n.toNat?.isSome) : s.HasReadableNumbers := by
  intro p hp doc hdoc
  refine (h p hp doc hdoc).imp ?_
  rintro n hn x rfl
  cases hn

theorem Audit.readJournal_eq_ok_iff {text : List Char} {rs : List Audit.Record} :
    Audit.readJournal text = .ok rs ↔ Audit.replay text = .ok rs := by
  rw [Audit.readJournal]
  cases Audit.replay text <;> simp [Except.mapError]

/-- An answer that tells of files that could not be read or written. -/
def Command.isFault : Except Error Json → Bool
  | .error (.snapshot _) | .error (.trail (.unwritable ..)) => true
  | _ => false

theorem Command.isFault_of_isOk {answer : Except Error Json} (h : answer.isOk) :
    isFault answer = false := by
  cases answer with
  | error e => cases h
  | ok v => rfl

def Json.nested : Nat → Json
  | 0 => .obj []
  | n + 1 => .obj [("a", nested n)]

theorem Json.depth_nested (n : Nat) : (nested n).depth = n + 1 := by
  induction n with
  | zero => rfl
  | succ n ih => simp [nested, depth, depthOfFields, ih]

theorem Json.collapse_nested (n : Nat) : (nested n).collapse = nested n := by
  induction n with
  | zero => rfl
  | succ n ih =>
    rw [nested, collapse_obj_eq_self]
    exact ⟨List.pairwise_singleton _ _, by simpa using ih⟩

theorem Json.allNumbers_nested (P : Number → Prop) (n : Nat) : (nested n).AllNumbers P := by
  induction n with
  | zero => trivial
  | succ n ih => exact ⟨ih, trivial⟩

theorem Command.parseRequest_compact (fields : Fields)
    (hdepth : (Json.obj fields).depth ≤ Json.maxDepth)
    (hcollapse : (Json.obj fields).collapse = .obj fields)
    (hnumbers : (Json.obj fields).AllNumbers Json.NumberReads) :
    parseRequest (Json.obj fields).compact = .ok (.obj fields) := by
  have hparse : Json.parse? (Json.obj fields).compact = some (.obj fields) := by
    rw [Json.parse?, Json.parseRaw?_compact hdepth hnumbers, Option.map_some, hcollapse]
  have htext : (Text.trim (Json.obj fields).compact.toList).isEmpty = false := by
    rw [Json.compact, String.toList_ofList, Json.compactChars]
    exact Text.isEmpty_trim_cons (by decide) _
  rw [parseRequest, htext, hparse]
  rfl

namespace Session

structure Request where
  task : Task
  input : String

/-- An object that is to be written leaves room for a list around it. -/
def Request.Fits (r : Request) : Prop :=
  r.task.writesInput → ∀ fields, Json.parse? r.input = some (.obj fields) →
    (Json.obj fields).depth < Json.maxDepth

def respond (s : Session) (r : Request) : Except Error Json × Session :=
  match Command.requestFor r.task r.input with
  | .error e => (.error e, s)
  | .ok body => s.execute r.task body

/-- One session for all requests: each answer, with the session after it. -/
def trace (s : Session) : List Request → List (Except Error Json × Session)
  | [] => []
  | r :: rs => s.respond r :: trace (s.respond r).2 rs

/-- A session of its own for each request, which finds the disk and the supply as the one before
left them: each answer, or why there was no session. -/
def restarts (c : Config) :
    Disk → Crm.Supply → List Request → List (Except Failure (Except Error Json))
  | _, _, [] => []
  | disk, supply, r :: rs =>
    match start c disk supply with
    | .error f => .error f :: restarts c f.disk supply rs
    | .ok s =>
      .ok (s.respond r).1 :: restarts c (s.respond r).2.disk (s.respond r).2.book.supply rs

/-- A command is a session with one request. -/
theorem runTask_eq {c : Config} {disk : Disk} {supply : Crm.Supply} {s : Session}
    (h : start c disk supply = .ok s) (r : Request) :
    (Command.runTask c r.task r.input disk supply).answer = (s.respond r).1 ∧
      (Command.runTask c r.task r.input disk supply).disk = (s.respond r).2.disk := by
  simp only [Command.runTask, h, respond]
  cases Command.requestFor r.task r.input <;> exact ⟨rfl, rfl⟩

theorem isBody_of_fits {r : Request} (h : r.Fits) (hwrites : r.task.writesInput) {body : Json}
    (hbody : Command.requestFor r.task r.input = .ok (some body)) : body.IsBody := by
  have hparse : Json.parse? r.input = some body := by
    unfold Command.requestFor at hbody
    split at hbody
    · obtain ⟨v, hv, hsome⟩ := Except.map_eq_ok_iff.mp hbody
      cases hsome
      unfold Command.parseRequest at hv
      split at hv
      · cases hv
      · cases hp : Json.parse? r.input with
        | none =>
          rw [hp] at hv
          cases hv
        | some w =>
          rw [hp] at hv
          cases hv
          rfl
    · cases hbody
  constructor
  · rintro fields rfl
    exact (Fields.isStorable_iff.mpr
      ⟨Json.collapse_of_parse? hparse, h hwrites fields hparse⟩).values
  · rintro values rfl fields hfields
    exact (Json.isStorable_of_parse? hparse hfields).values

/-- A session whose files are read as what is in it. -/
structure Ready (s : Session) : Prop where
  book : Book.Alike s.book.store.collectionNames s.config.auditLog.isSome s.book s.book
  folder : HasFolder s.disk s.config.dataDir s.book.store.collectionNames
  journal : ∀ route ∈ s.config.auditLog, ∃ rs text, s.book.trail = .journal rs text ∧
    HasJournal s.disk s.config.dataDir route text
  loads : ∃ l, Store.load s.config.dataDir s.disk = .ok l ∧
    Store.Alike s.book.store.collectionNames s.book.store l.store

variable {s s' : Session} {names : List String}

theorem Ready.alike (h : s.Ready) : Alike s.book.store.collectionNames s s := ⟨rfl, rfl, h.book⟩

theorem Ready.openTrail (h : s.Ready) :
    ∃ replayed, openTrail s.config s.disk = (.ok (s.book.trail, replayed), s.disk) := by
  have hrestored := h.book.restored
  cases haudit : s.config.auditLog with
  | none =>
    rw [haudit] at hrestored
    have htrail : s.book.trail = .documents := by
      cases ht : s.book.trail with
      | documents => rfl
      | journal rs text =>
        rw [ht] at hrestored
        cases hrestored.1
      | _ =>
        rw [ht] at hrestored
        exact hrestored.elim
    exact ⟨[], by rw [Session.openTrail, haudit, htrail]⟩
  | some route =>
    obtain ⟨rs, text, htrail, hjournal⟩ := h.journal route (by rw [haudit]; rfl)
    rw [htrail] at hrestored
    obtain ⟨-, -, hreplay⟩ := hrestored
    simp only [Session.openTrail, haudit, replayJournal, hjournal.journalText_eq, String.toList_ofList,
      Audit.readJournal_eq_ok_iff.mpr hreplay, htrail, Except.map]
    exact ⟨_, rfl⟩

theorem Ready.start (h : s.Ready) :
    ∃ s', start s.config s.disk s.book.supply = .ok s' ∧
      Alike s.book.store.collectionNames s s' := by
  obtain ⟨l, hload, hstore⟩ := h.loads
  obtain ⟨replayed, htrail⟩ := h.openTrail
  unfold Session.start
  simp only [loadStore, hload, Except.map, htrail]
  exact ⟨_, rfl, rfl, rfl, hstore, h.book.restored, h.book.clock, rfl, rfl⟩

theorem Ready.read (h : s.Ready) {b : Book}
    (hb : Book.Alike s.book.store.collectionNames s.config.auditLog.isSome b b)
    (hstore : b.store = s.book.store) (htrail : b.trail = s.book.trail) :
    Ready { s with book := b } where
  book := by rwa [hstore]
  folder := by
    rw [hstore]
    exact h.folder
  journal route hroute := by
    obtain ⟨rs, text, hjournal⟩ := h.journal route hroute
    exact ⟨rs, text, by rwa [htrail]⟩
  loads := by
    rw [hstore]
    exact h.loads

theorem writeJournal_eq_ok (h : s.writeJournal = .ok s')
    (hf : HasFolder s.disk s.config.dataDir names)
    (hj : ∀ route ∈ s.config.auditLog, ∃ text, HasJournal s.disk s.config.dataDir route text)
    (htrail : ∀ route ∈ s.config.auditLog, ∃ rs text, s.book.trail = .journal rs text) :
    s'.config = s.config ∧ s'.book = s.book ∧ HasFolder s'.disk s.config.dataDir names ∧
      ∀ route ∈ s.config.auditLog, ∃ rs text, s.book.trail = .journal rs text ∧
        HasJournal s'.disk s.config.dataDir route text := by
  cases haudit : s.config.auditLog with
  | none =>
    rw [Session.writeJournal, haudit] at h
    cases h
    exact ⟨rfl, rfl, hf, nofun⟩
  | some route =>
    obtain ⟨text, hjournal⟩ := hj route (by rw [haudit]; rfl)
    obtain ⟨rs, text', htrail⟩ := htrail route (by rw [haudit]; rfl)
    simp only [Session.writeJournal, haudit, htrail] at h
    split at h
    · rename_i disk hwrite
      cases h
      obtain ⟨hjournal', hf'⟩ := hjournal.write hf hwrite
      refine ⟨rfl, rfl, hf', fun route' hroute => ?_⟩
      cases hroute
      exact ⟨rs, text', htrail, hjournal'⟩
    · cases h

theorem persistThen_eq {answer : Except Error Json}
    (h : Command.isFault (s.persistThen answer).1 = false) :
    ∃ s₁ disk log, s.writeJournal = .ok s₁ ∧
      s₁.book.store.save s₁.config.dataDir s₁.disk = (.ok (), disk) ∧
      s.persistThen answer =
        (answer, { s₁ with disk := disk, book := { s₁.book with log := log } }) := by
  unfold Session.persistThen Session.persist at h ⊢
  cases hwrite : s.writeJournal with
  | error e =>
    rw [hwrite] at h
    unfold Session.writeJournal at hwrite
    split at hwrite
    · split at hwrite
      · cases hwrite
      · cases hwrite
        cases h
    · cases hwrite
  | ok s₁ =>
    rw [hwrite] at h
    simp only [Session.saveStore] at h ⊢
    rcases hsave : s₁.book.store.save s₁.config.dataDir s₁.disk with ⟨result, disk⟩
    cases result with
    | error e =>
      rw [hsave] at h
      cases h
    | ok u => exact ⟨s₁, disk, _, rfl, hsave, rfl⟩

/-- What is in the files once a session could write its book to them. -/
theorem Ready.saved (h : s.Ready) {b : Book}
    (hknown : ∀ c ∈ s.book.store.collectionNames, c ∈ b.store.collectionNames)
    (husable : ∀ c ∈ b.store.collectionNames, Store.IsUsable c)
    (htrail : ∀ route ∈ s.config.auditLog, ∃ rs text, b.trail = .journal rs text)
    {answer : Except Error Json}
    (hanswer : Command.isFault (persistThen { s with book := b } answer).1 = false) :
    ∃ disk log, persistThen { s with book := b } answer =
        (answer, ⟨s.config, { b with log := log }, disk⟩) ∧
      HasFolder disk s.config.dataDir b.store.collectionNames ∧
      (∀ c ≠ "", Store.snapshotAt s.config.dataDir disk c =
        if c ∈ b.store.collectionNames then some (Store.snapshotText (b.store.collection c))
        else none) ∧
      ∀ route ∈ s.config.auditLog, ∃ rs text, b.trail = .journal rs text ∧
        HasJournal disk s.config.dataDir route text := by
  obtain ⟨s₁, disk, log, hwrite, hsave, hrun⟩ := persistThen_eq hanswer
  have hfolder : HasFolder s.disk s.config.dataDir b.store.collectionNames :=
    { h.folder with known := fun c hne text htext => hknown c (h.folder.known c hne text htext) }
  obtain ⟨hconfig, hbook, hfolder₁, hjournal₁⟩ := writeJournal_eq_ok hwrite hfolder
    (fun route hroute => by
      obtain ⟨rs, text, -, hj⟩ := h.journal route hroute
      exact ⟨text, hj⟩) htrail
  obtain ⟨config, book, disk₁⟩ := s₁
  cases hconfig
  cases hbook
  obtain ⟨hfolder', hsnapshots, hjournals⟩ := hfolder₁.save husable hsave
  refine ⟨disk, log, hrun, hfolder', hsnapshots, fun route hroute => ?_⟩
  obtain ⟨rs, text, htrail, hj⟩ := hjournal₁ route hroute
  exact ⟨rs, text, htrail, hjournals route text hj⟩

theorem Ready.written (h : s.Ready) {b : Book}
    (hb : Book.Alike s.book.store.collectionNames s.config.auditLog.isSome b b)
    {answer : Except Error Json}
    (hanswer : Command.isFault (persistThen { s with book := b } answer).1 = false)
    (hnumbers : (persistThen { s with book := b } answer).2.book.store.HasReadableNumbers) :
    Ready (persistThen { s with book := b } answer).2 ∧
      (persistThen { s with book := b } answer).2.config = s.config := by
  have htrail : ∀ route ∈ s.config.auditLog, ∃ rs text, b.trail = .journal rs text := by
    intro route hroute
    have hrestored := hb.restored
    rw [Option.mem_def.mp hroute] at hrestored
    exact hrestored.exists_journal
  obtain ⟨disk, log, hrun, hfolder, hsnapshots, hjournal⟩ :=
    h.saved hb.store.known hb.store.usable htrail hanswer
  rw [hrun] at hnumbers ⊢
  have hstore : Store.Alike b.store.collectionNames b.store b.store :=
    { hb.store with known := fun _ h => h }
  refine ⟨⟨⟨hstore, hb.restored, hb.clock, rfl, rfl⟩, hfolder, hjournal, ?_⟩, rfl⟩
  refine Store.load_of_snapshotAt hstore hfolder.tidy hfolder.notFile hsnapshots fun c _ => ?_
  exact Json.parse?_documents (hstore.storable c) fun doc hdoc =>
    (hnumbers.collection c doc hdoc).imp fun _ => Json.numberReads_of_doubleReads

theorem Alike.respond {files : List String} (h : Alike files s s') {r : Request} (hfits : r.Fits) :
    Together files s s' (s.respond r) (s'.respond r) := by
  unfold Session.respond
  cases hbody : Command.requestFor r.task r.input with
  | error e => exact h.stay _
  | ok body =>
    refine h.execute fun hwrites v hv => isBody_of_fits hfits hwrites ?_
    rw [hbody, hv]

theorem Together.ready (h : s.Ready) {result result' : Except Error Json × Session}
    (hr : Together s.book.store.collectionNames s s result result')
    (hanswer : Command.isFault result.1 = false)
    (hnumbers : result.2.book.store.HasReadableNumbers) :
    result.2.Ready ∧ result.2.config = s.config := by
  cases hr with
  | read answer hb hstore htrail => exact ⟨h.read hb.left hstore htrail, rfl⟩
  | written answer hb => exact h.written hb.left hanswer hnumbers

theorem start_eq_ok {c : Config} {disk : Disk} {supply : Crm.Supply}
    (h : start c disk supply = .ok s) :
    ∃ l trail replayed log disk', Store.load c.dataDir disk = .ok l ∧
      openTrail c disk = (.ok (trail, replayed), disk') ∧
      s = ⟨c, ⟨l.store, trail, .zero, log, supply⟩, disk'⟩ := by
  unfold Session.start at h
  split at h
  · cases h
  rename_i hload
  obtain ⟨l, hl, heq⟩ := Except.map_eq_ok_iff.mp hload
  cases heq
  split at h
  · cases h
  rename_i htrail
  cases h
  exact ⟨l, _, _, _, _, hl, htrail, rfl⟩

theorem replayJournal_eq_ok {route : Route} {disk disk' : Disk} {trail : Audit.Trail}
    {replayed : List Telemetry.Entry}
    (h : replayJournal route disk = (.ok (trail, replayed), disk')) :
    ∃ rs content, journalText route disk = (.ok content, disk') ∧
      trail = .journal rs content.toList ∧ Audit.replay content.toList = .ok rs := by
  unfold Session.replayJournal at h
  split at h
  · cases h
  rename_i content disk₁ hjournal
  obtain ⟨hopened, hdisk⟩ := Prod.mk.inj h
  cases hdisk
  obtain ⟨rs, hrs, heq⟩ := Except.map_eq_ok_iff.mp hopened
  cases heq
  exact ⟨rs, content, hjournal, rfl, Audit.readJournal_eq_ok_iff.mp hrs⟩

/-- A session that has just begun is ready. -/
theorem ready_of_start {c : Config} {disk : Disk} {supply : Crm.Supply}
    (h : Session.start c disk supply = .ok s) (htidy : disk.root.IsTidy)
    (hreached : IsReached disk c.dataDir)
    (hapart : ∀ route ∈ c.auditLog, ∀ way, s.disk.locate route = .ok way →
      IsApart s.disk c.dataDir way)
    (hcomplete : ∀ rs text, s.book.trail = .journal rs text → Text.IsComplete text)
    (hclock : ∀ n, (supply.time n).toMillisPrecision.IsRecorded) : s.Ready := by
  obtain ⟨l, trail, replayed, log, disk', hl, htrail, rfl⟩ := start_eq_ok h
  obtain ⟨hstore, hknown⟩ := Store.alike_of_load htidy hl
  have hfile : ∀ text, disk.find? c.dataDir ≠ some (.file text) := by
    intro text hfile
    rw [Store.load, hfile] at hl
    cases hl
  have hfolder : HasFolder disk c.dataDir l.store.collectionNames :=
    ⟨htidy, hreached, hfile, hknown⟩
  unfold Session.openTrail at htrail
  cases haudit : c.auditLog with
  | none =>
    rw [haudit] at htrail
    cases htrail
    refine ⟨⟨hstore, ?_, hclock, rfl, rfl⟩, hfolder, ?_, l, hl, hstore⟩
    · rw [haudit]
      rfl
    · rw [haudit]
      intro route hroute
      cases hroute
  | some route =>
    rw [haudit] at htrail
    obtain ⟨rs, content, hjournal, heq, hreplay⟩ := replayJournal_eq_ok htrail
    cases heq
    obtain ⟨hhas, hsame, hkept⟩ := journalText_eq_ok hjournal (hapart route (by rw [haudit]; rfl))
    have hfolder' := hkept hfolder
    refine ⟨⟨hstore, ?_, hclock, rfl, rfl⟩, hfolder', ?_, ?_⟩
    · rw [haudit]
      exact ⟨rfl, hcomplete rs _ rfl, hreplay⟩
    · intro route' hroute
      rw [haudit] at hroute
      cases hroute
      exact ⟨rs, _, rfl, hhas⟩
    · have hagain := Store.load_congr htidy hfolder'.tidy hfile hfolder'.notFile
        fun c _ => hsame hreached htidy c
      rw [hl] at hagain
      obtain ⟨l', hl', heq⟩ := Except.map_eq_ok_iff.mp hagain
      exact ⟨l', hl', heq ▸ hstore⟩

/-- Once a session has written a document that is nested as deep as a text may be, no session begins
any more: the snapshot is a list around it. -/
theorem Ready.start_of_deep (h : s.Ready) {b : Book}
    (hknown : ∀ c ∈ s.book.store.collectionNames, c ∈ b.store.collectionNames)
    (husable : ∀ c ∈ b.store.collectionNames, Store.IsUsable c)
    (htrail : ∀ route ∈ s.config.auditLog, ∃ rs text, b.trail = .journal rs text)
    (hnumbers : b.store.HasReadableNumbers) {answer : Except Error Json}
    (hanswer : Command.isFault (persistThen { s with book := b } answer).1 = false)
    {collection : String} {doc : Fields} (hcollection : collection ∈ b.store.collectionNames)
    (hdoc : doc ∈ (b.store.collection collection).documents)
    (hdeep : Json.maxDepth ≤ (Json.obj doc).depth) (supply : Crm.Supply) :
    ∃ f, Session.start s.config (persistThen { s with book := b } answer).2.disk supply =
      .error f := by
  obtain ⟨disk, log, hrun, hfolder, hsnapshots, -⟩ := h.saved hknown husable htrail hanswer
  have hne := (husable collection hcollection).nonempty
  have hsnapshot := hsnapshots collection hne
  rw [if_pos hcollection] at hsnapshot
  have htext : Json.parse? (Store.snapshotText (b.store.collection collection)) = none :=
    Json.parse?_documents_eq_none hdoc hdeep fun doc hdoc =>
      (hnumbers.collection collection doc hdoc).imp fun _ => Json.numberReads_of_doubleReads
  obtain ⟨e, hload⟩ := Store.load_eq_error hfolder.tidy hfolder.notFile hne hsnapshot htext
  rw [hrun]
  simp only [Session.start, loadStore, hload, Except.map]
  exact ⟨_, rfl⟩

theorem error_mem_restarts {c : Config} {disk : Disk} {supply : Crm.Supply} {f : Failure}
    {r : Request} (q : Request) (hstart : Session.start c disk supply = .ok s)
    (hf : Session.start c (s.respond r).2.disk (s.respond r).2.book.supply = .error f) :
    .error f ∈ restarts c disk supply [r, q] := by
  simp only [restarts, hstart, hf]
  exact List.mem_cons_of_mem _ List.mem_cons_self

/-- One session answers every request, but of the sessions for each of them one does not begin. -/
def BreaksOff (c : Config) (disk : Disk) (supply : Crm.Supply) (requests : List Request) : Prop :=
  ∃ s f, Session.start c disk supply = .ok s ∧ (∀ t ∈ s.trace requests, t.1.isOk) ∧
    .error f ∈ restarts c disk supply requests

theorem Ready.breaksOff_of_deep (h : s.Ready) {disk : Disk} {supply : Crm.Supply}
    (hstart : Session.start s.config disk supply = .ok s) {r q : Request} {b : Book}
    {answer : Except Error Json} (hrespond : s.respond r = persistThen { s with book := b } answer)
    (hwritten : (persistThen { s with book := b } answer).1 = answer) (hok : answer.isOk)
    (hquery : ((persistThen { s with book := b } answer).2.respond q).1.isOk)
    (hknown : ∀ c ∈ s.book.store.collectionNames, c ∈ b.store.collectionNames)
    (husable : ∀ c ∈ b.store.collectionNames, Store.IsUsable c)
    (htrail : ∀ route ∈ s.config.auditLog, ∃ rs text, b.trail = .journal rs text)
    (hnumbers : b.store.HasReadableNumbers) {collection : String} {doc : Fields}
    (hcollection : collection ∈ b.store.collectionNames)
    (hdoc : doc ∈ (b.store.collection collection).documents)
    (hdeep : Json.maxDepth ≤ (Json.obj doc).depth) :
    BreaksOff s.config disk supply [r, q] := by
  have hfault : Command.isFault (persistThen { s with book := b } answer).1 = false := by
    rw [hwritten]
    exact Command.isFault_of_isOk hok
  obtain ⟨f, hf⟩ := h.start_of_deep hknown husable htrail hnumbers hfault hcollection hdoc hdeep
    (persistThen { s with book := b } answer).2.book.supply
  rw [← hrespond] at hf
  refine ⟨s, f, hstart, ?_, error_mem_restarts q hstart hf⟩
  simp only [trace, hrespond, List.forall_mem_cons, hwritten]
  exact ⟨hok, hquery, fun _ h => absurd h List.not_mem_nil⟩

theorem persistThen_of_save (haudit : s.config.auditLog = none) {disk : Disk}
    (hsave : s.book.store.save s.config.dataDir s.disk = (.ok (), disk))
    (answer : Except Error Json) : (s.persistThen answer).1 = answer := by
  simp only [persistThen, persist, writeJournal, haudit, saveStore, hsave]

theorem respond_create {name input : String} {e : Crm.Entity} {fields : Fields} (user : Identifier)
    (he : Crm.entity? name = some e) (hinput : Command.parseRequest input = .ok (.obj fields)) :
    s.respond ⟨.create name user, input⟩ =
      persistThen { s with book := (s.book.createOne e (.obj fields) user).2 }
        (((s.book.createOne e (.obj fields) user).1.mapError .crm).map Crm.Mutation.toJson) := by
  simp only [respond, Command.requestFor, Task.readsInput, hinput, execute, onBody, onEntity, he,
    create, withBook, if_true, Except.map]

theorem Ready.restarts_eq {c : Config} {disk : Disk} {supply : Crm.Supply}
    {requests : List Request} (h : s.Ready) (hconfig : s.config = c)
    (hstart : Session.start c disk supply = .ok s')
    (halike : Alike s.book.store.collectionNames s s') (hfits : ∀ r ∈ requests, r.Fits)
    (hanswers : ∀ t ∈ s.trace requests, Command.isFault t.1 = false)
    (hnumbers : ∀ t ∈ s.trace requests, t.2.book.store.HasReadableNumbers) :
    restarts c disk supply requests = (s.trace requests).map fun t => .ok t.1 := by
  induction requests generalizing s s' disk supply with
  | nil => rfl
  | cons r requests ih =>
    rw [List.forall_mem_cons] at hfits
    rw [trace, List.forall_mem_cons] at hanswers hnumbers
    obtain ⟨hready, hkept⟩ :=
      (h.alike.respond hfits.1).ready h hanswers.1 hnumbers.1
    have hconfig' := hkept.trans hconfig
    obtain ⟨s'', hstart', halike'⟩ := hready.start
    rw [hconfig'] at hstart'
    have hrest := ih hready hconfig' hstart' halike' hfits.2 hanswers.2 hnumbers.2
    obtain ⟨hanswer, hsession⟩ := (halike.respond hfits.1).same halike
    simp only [restarts, hstart, hanswer, hsession.disk, hsession.book.supply, hrest, trace,
      List.map_cons]

/-- Restarts cannot be seen: a session for each request begins, and answers as one session for all
of them does. -/
theorem restarts_eq_trace {c : Config} {disk : Disk} {supply : Crm.Supply} {s : Session}
    {requests : List Request} (hstart : Session.start c disk supply = .ok s)
    (htidy : disk.root.IsTidy) (hreached : IsReached disk c.dataDir)
    (hapart : ∀ route ∈ c.auditLog, ∀ way, s.disk.locate route = .ok way →
      IsApart s.disk c.dataDir way)
    (hcomplete : ∀ rs text, s.book.trail = .journal rs text → Text.IsComplete text)
    (hclock : ∀ n, (supply.time n).toMillisPrecision.IsRecorded)
    (hfits : ∀ r ∈ requests, r.Fits)
    (hanswers : ∀ t ∈ s.trace requests, Command.isFault t.1 = false)
    (hnumbers : ∀ t ∈ s.trace requests, t.2.book.store.HasReadableNumbers) :
    restarts c disk supply requests = (s.trace requests).map fun t => .ok t.1 := by
  have hready := ready_of_start hstart htidy hreached hapart hcomplete hclock
  have hconfig : s.config = c := by
    obtain ⟨-, -, -, -, -, -, -, rfl⟩ := start_eq_ok hstart
    rfl
  exact hready.restarts_eq hconfig hstart hready.alike hfits hanswers hnumbers

theorem restarts_eq_trace_company :
    let c : Config := ⟨⟨"data"⟩, some ⟨"audit.log"⟩, .strict, 10, "info"⟩
    let disk : Disk := ⟨.folder [], []⟩
    let time : Time.Instant := ⟨19844, 36000, 250000000⟩
    let supply : Crm.Supply := ⟨fun n => ⟨BitVec.ofNat 128 n⟩, fun _ => time, 0, 0⟩
    let requests : List Request :=
      [⟨.create "companies" ⟨99⟩, "\x7b\"name\": \"Initech\", \"size\": 12\x7d"⟩,
        ⟨.get "companies" ⟨0⟩, ""⟩, ⟨.audit none none none, ""⟩]
    ∃ s, Session.start c disk supply = .ok s ∧ (∀ r ∈ requests, r.Fits) ∧
      (∀ t ∈ s.trace requests, Command.isFault t.1 = false) ∧
      (∀ t ∈ s.trace requests, t.2.book.store.HasReadableNumbers) ∧
      restarts c disk supply requests = (s.trace requests).map fun t => .ok t.1 := by
  intro c disk time supply requests
  have hrun : ((Session.start c disk supply).toOption.any fun s =>
      s.disk.locate ⟨"audit.log"⟩ = .ok ["audit.log"] && !s.disk.has ⟨"data"⟩ &&
      s.book.trail.text? = some [] &&
      (s.trace requests).all fun t => !Command.isFault t.1 &&
        t.2.book.store.collections.all fun p => p.2.documents.all fun doc =>
          (Json.obj doc).AllNumbers fun n => n.toNat?.isSome) = true := by
    decide +kernel
  obtain ⟨s, hs, hrun⟩ := (Option.any_eq_true _ _).mp hrun
  have hstart : Session.start c disk supply = .ok s := Except.toOption_eq_some_iff.mp hs
  simp only [Bool.and_eq_true, decide_eq_true_eq, Bool.not_eq_true', List.all_eq_true] at hrun
  obtain ⟨⟨⟨hlocate, hmissing⟩, htext⟩, htrace⟩ := hrun
  have htidy : disk.root.IsTidy := FileTree.isTidy_nil
  have hreached : IsReached disk c.dataDir := .inr (by decide +kernel)
  have hapart : ∀ route ∈ c.auditLog, ∀ way, s.disk.locate route = .ok way →
      IsApart s.disk c.dataDir way := by
    intro route _ way _ base hbase
    cases hmissing.symm.trans (Disk.has_iff.mpr ⟨base, hbase⟩)
  have hcomplete : ∀ rs text, s.book.trail = .journal rs text → Text.IsComplete text := by
    intro rs text htrail
    rw [htrail] at htext
    exact .inl (Option.some.inj htext)
  have htime : time.toMillisPrecision.IsRecorded :=
    ⟨by decide, by decide, by decide, fun h => absurd h (by decide)⟩
  have hclock : ∀ n, (supply.time n).toMillisPrecision.IsRecorded := fun _ => htime
  have hfits : ∀ r ∈ requests, r.Fits := by
    have hall : (requests.all fun r =>
        (Json.parse? r.input).all fun v => v.depth < Json.maxDepth) = true := by decide +kernel
    intro r hr _ fields hparse
    have hdepth := List.all_eq_true.mp hall r hr
    rw [hparse] at hdepth
    exact of_decide_eq_true hdepth
  have hanswers : ∀ t ∈ s.trace requests, Command.isFault t.1 = false := fun t ht => (htrace t ht).1
  have hnumbers : ∀ t ∈ s.trace requests, t.2.book.store.HasReadableNumbers := fun t ht =>
    Store.hasReadableNumbers_of_toNat? (htrace t ht).2
  exact ⟨s, hstart, hfits, hanswers, hnumbers, restarts_eq_trace hstart htidy hreached hapart
    hcomplete hclock hfits hanswers hnumbers⟩

/-- Two scripts whose second request is answered by the one session that goes on, and finds none
where each request has its own: the journal is one of the files that are read as snapshots, or the
first request creates a deal that is nested as deep as a text may be. -/
theorem restarts_ne_trace :
    let disk : Disk := ⟨.folder [], []⟩
    let time : Time.Instant := ⟨19844, 36000, 250000000⟩
    let supply : Crm.Supply := ⟨fun n => ⟨BitVec.ofNat 128 n⟩, fun _ => time, 0, 0⟩
    let query : Request := ⟨.query "companies", "\x7b\x7d"⟩
    BreaksOff ⟨⟨"data"⟩, some ⟨"data/audit.json"⟩, .strict, 10, "info"⟩ disk supply
        [query, query] ∧
      BreaksOff ⟨⟨"data"⟩, none, .strict, 10, "info"⟩ disk supply
        [⟨.create "deals" ⟨99⟩, (Json.nested 126).compact⟩, query] := by
  intro disk time supply query
  constructor
  · let c : Config := ⟨⟨"data"⟩, some ⟨"data/audit.json"⟩, .strict, 10, "info"⟩
    have hanswers : ((Session.start c disk supply).toOption.any fun s =>
        (s.trace [query, query]).all fun t => t.1.isOk) = true := by decide +kernel
    have hboots : ((restarts c disk supply [query, query]).any fun a => !a.isOk) = true := by
      decide +kernel
    obtain ⟨s, hs, hall⟩ := (Option.any_eq_true _ _).mp hanswers
    obtain ⟨a, ha, hfault⟩ := List.any_eq_true.mp hboots
    cases a with
    | ok a => cases hfault
    | error f => exact ⟨s, f, Except.toOption_eq_some_iff.mp hs, List.all_eq_true.mp hall, ha⟩
  · let c : Config := ⟨⟨"data"⟩, none, .strict, 10, "info"⟩
    let s : Session := ⟨c, ⟨.empty, .documents, .zero, [], supply⟩, disk⟩
    have hstart : Session.start c disk supply = .ok s := by
      have hmissing : disk.find? c.dataDir = none :=
        Option.isNone_iff_eq_none.mp (by decide +kernel)
      simp only [Session.start, loadStore, Store.load, hmissing]
      rfl
    have hready : s.Ready := by
      have htime : time.toMillisPrecision.IsRecorded :=
        ⟨by decide, by decide, by decide, fun h => absurd h (by decide)⟩
      refine ready_of_start hstart FileTree.isTidy_nil (.inr (by decide +kernel))
        (fun route hroute => absurd hroute (Option.not_mem_none route)) ?_ fun _ => htime
      intro rs text htrail
      cases htrail
    let fields : Fields := [("a", Json.nested 125)]
    -- The run has a name, lest it be computed in every step.
    obtain ⟨run, hrun⟩ : ∃ run, run = s.book.createOne Crm.deals (.obj fields) ⟨99⟩ := ⟨_, rfl⟩
    obtain ⟨answer, ha⟩ : ∃ answer, answer = (run.1.mapError Error.crm).map Crm.Mutation.toJson :=
      ⟨_, rfl⟩
    have hrespond : s.respond ⟨.create "deals" ⟨99⟩, (Json.nested 126).compact⟩ =
        persistThen { s with book := run.2 } answer := by
      have hcreate := respond_create (s := s) ⟨99⟩ (show Crm.entity? "deals" = some Crm.deals by rfl)
        (Command.parseRequest_compact fields (Json.depth_nested 126).le (Json.collapse_nested 126)
          (Json.allNumbers_nested _ 126))
      rwa [← hrun, ← ha] at hcreate
    have hnames : run.2.store.collectionNames = ["deals", "audits"] := by
      rw [hrun]
      decide +kernel
    have husable : ∀ c ∈ run.2.store.collectionNames, Store.IsUsable c := by
      rw [hnames, List.forall_mem_cons, List.forall_mem_singleton]
      exact ⟨Crm.isUsable_of_mem_catalog (e := Crm.deals) (by simp [Crm.catalog]),
        Audit.Trail.isUsable_auditCollection⟩
    have hnumbers : run.2.store.HasReadableNumbers := by
      refine Store.hasReadableNumbers_of_toNat? ?_
      rw [hrun]
      decide +kernel
    obtain ⟨disk', hsave⟩ : ∃ disk', run.2.store.save c.dataDir disk = (.ok (), disk') := by
      have hsorted :
          Store.sortedNames (run.2.store.collections.map (·.1)) = ["audits", "deals"] := by
        rw [show run.2.store.collections.map (·.1) = ["deals", "audits"] from hnames,
          ← Store.sortedNames_of_perm (List.Perm.swap "deals" "audits" [])]
        exact List.mergeSort_of_pairwise (by decide +kernel)
      obtain ⟨_, made, hmade, -⟩ :=
        Except.exists_run (disk.makeFolders (c.dataDir :: c.dataDir.above)) id (b := ())
          (by decide +kernel)
      have hsaved : (Store.saveAll run.2.store c.dataDir ["audits", "deals"]
          (disk.makeFolders (c.dataDir :: c.dataDir.above)).2).1.toOption.map id = some () := by
        rw [hrun]
        decide +kernel
      rw [hmade] at hsaved
      obtain ⟨_, disk', hsaved, -⟩ := Except.exists_run _ id hsaved
      exact ⟨disk', by simp only [Store.save, hmade, hsorted, hsaved]⟩
    have hanswer : (persistThen { s with book := run.2 } answer).1 = answer :=
      persistThen_of_save (s := { s with book := run.2 }) rfl hsave answer
    have hok : answer.isOk := by
      rw [ha, hrun]
      decide +kernel
    have hquery : ((persistThen { s with book := run.2 } answer).2.respond query).1.isOk := by
      rw [ha, hrun]
      decide +kernel
    obtain ⟨doc, hdoc, hdeep⟩ : ∃ doc ∈ (run.2.store.collection "deals").documents,
        Json.maxDepth ≤ (Json.obj doc).depth := by
      rw [hrun]
      decide +kernel
    exact hready.breaksOff_of_deep hstart hrespond hanswer hok hquery
      (fun c hc => absurd hc List.not_mem_nil) husable
      (fun route hroute => absurd hroute (Option.not_mem_none route)) hnumbers
      (hnames ▸ List.mem_cons_self) hdoc hdeep

end Session

end Clientele
