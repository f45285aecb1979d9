import Clientele.Proofs.Audit.Privacy
import Clientele.Proofs.Crm.ChangeSet
import Clientele.Proofs.Json.Value

/-!
What the trail keeps to itself. Of a user it tells the public fields and nothing else: what is
created or updated besides, a password say, makes no difference to the changes of a record.
-/
set_option autoImplicit false

namespace Clientele.Crm

open Audit (Diff publicPart)

variable {e : Entity} {ps : List String} {b b' : Book} {m m' : Mutation} {r r' : Audit.Record}

namespace Step

/-- Whether two steps on an entity are of one kind, with the same public part of what they bring and
of what is stored. -/
inductive SamePublic (e : Entity) (ps : List String) (b b' : Book) : Step → Step → Prop
  | insert {values values' : Fields} (userId userId' : Identifier)
      (h : publicPart ps values = publicPart ps values') :
      SamePublic e ps b b' (insert e values userId) (insert e values' userId')
  | update {id id' : Identifier} {patch patch' previous previous' : Fields}
      (userId userId' : Identifier) (h : publicPart ps patch = publicPart ps patch')
      (hprevious : b.store.get? e.collection id = some previous)
      (hprevious' : b'.store.get? e.collection id' = some previous')
      (hold : ∀ name ∈ ps, previous.get? name = previous'.get? name) :
      SamePublic e ps b b' (update e id (.obj patch) userId) (update e id' (.obj patch') userId')

theorem publicPart_withoutBlanks (ps : List String) (patch : Fields) :
    publicPart ps (withoutBlanks patch) = withoutBlanks (publicPart ps patch) :=
  List.filter_comm ..

theorem changes_insert {values : Fields} {userId : Identifier}
    (hm : (insert e values userId).Yields b m) (hr : m.audit = some (.ok r)) :
    r.changes = (Diff.createWithDefaults e.defaults).changes e.publicFields values := by
  obtain ⟨-, -, hchanges, -⟩ := Book.insert_recorded hm hr
  exact hchanges

theorem changes_update (hpricing : e.pricing = false) {id userId : Identifier}
    {patch previous : Fields} (hprevious : b.store.get? e.collection id = some previous)
    (hm : (update e id (.obj patch) userId).Yields b m) (hr : m.audit = some (.ok r)) :
    r.changes = (Diff.update (some (.obj previous))).changes e.publicFields
      (withoutBlanks patch) := by
  obtain ⟨fields, previous', -, hpayload, hprevious', -, -, hchanges, -⟩ :=
    Book.updateOne_recorded hm hr
  obtain ⟨heq, -⟩ := payload_eq_ok.mp hpayload
  cases heq
  cases hprevious.symm.trans hprevious'
  rw [hchanges, effectivePatch, hpricing]
  rfl

theorem SamePublic.exists_diff (hpublic : e.publicFields = some ps) (hpricing : e.pricing = false)
    {s s' : Step} (h : s.SamePublic e ps b b' s') (hm : s.Yields b m)
    (hr : m.audit = some (.ok r)) (hm' : s'.Yields b' m') (hr' : m'.audit = some (.ok r')) :
    ∃ (d d' : Diff) (values values' : Fields), r.changes = d.changes (some ps) values ∧
      r'.changes = d'.changes (some ps) values' ∧ d.SamePublic ps d' ∧
      publicPart ps values = publicPart ps values' := by
  rw [← hpublic]
  cases h with
  | insert _ _ hvalues =>
    exact ⟨_, _, _, _, changes_insert hm hr, changes_insert hm' hr', .createWithDefaults rfl,
      hvalues⟩
  | update _ _ hpatch hprevious hprevious' hold =>
    refine ⟨_, _, _, _, changes_update hpricing hprevious hm hr,
      changes_update hpricing hprevious' hm' hr', .update hold, ?_⟩
    rw [publicPart_withoutBlanks, publicPart_withoutBlanks, hpatch]

end Step

/-- Change sets are made of what is public, whichever way they are made: two that have this part in
common are the same, and each of their changes is about a public field. So are the records of users.
-/
theorem changes_private :
    (∀ (ps : List String) (values values' : Fields) (d d' : Diff),
      publicPart ps values = publicPart ps values' → d.SamePublic ps d' →
        d.changes (some ps) values = d'.changes (some ps) values') ∧
    (∀ (ps : List String) (values : Fields) (d : Diff),
      ∀ c ∈ d.changes (some ps) values, ∃ field ∈ ps, c.IsAbout field) ∧
    ∀ (ps : List String), users.publicFields = some ps → ∀ (b b' : Book) (s s' : Step)
      (m m' : Mutation) (r r' : Audit.Record), s.SamePublic users ps b b' s' →
        s.Yields b m → m.audit = some (.ok r) → s'.Yields b' m' → m'.audit = some (.ok r') →
          r.changes = r'.changes ∧ ∀ c ∈ r.changes, ∃ field ∈ ps, c.IsAbout field := by
  refine ⟨fun ps values values' d d' hvalues hd => hd.changes_eq hvalues,
    fun ps values d c hc => Diff.isAbout_of_mem_changes hc, ?_⟩
  intro ps hpublic b b' s s' m m' r r' hs hm hr hm' hr'
  obtain ⟨d, d', values, values', hchanges, hchanges', hd, hvalues⟩ :=
    hs.exists_diff hpublic rfl hm hr hm' hr'
  rw [hchanges, hchanges']
  exact ⟨hd.changes_eq hvalues, fun c hc => Diff.isAbout_of_mem_changes hc⟩

theorem changes_private_password :
    let time : Time.Instant := ⟨19844, 36000, 250000000⟩
    let b : Book := ⟨Store.empty, .memory [], .zero, [],
      ⟨fun n => ⟨BitVec.ofNat 128 n⟩, fun _ => time, 0, 0⟩⟩
    let ps := ["name", "email", "phone", "jobTitle", "timezone", "role", "avatarUrl"]
    let values : Fields := [("name", .str "Ann"), ("password", .str "hunter2")]
    let values' : Fields :=
      [("password", .str "opensesame"), ("name", .str "Ann"), ("city", .str "Oslo")]
    let old : Json := .obj [("name", .str "Bea"), ("password", .str "letmein")]
    let old' : Json := .obj [("name", .str "Bea")]
    users.publicFields = some ps ∧ publicPart ps values = publicPart ps values' ∧
    (Diff.update (some old)).changes (some ps) values =
      (Diff.update (some old')).changes (some ps) values' ∧
    ∃ m m' r r', (b.insert users values ⟨99⟩).1 = .ok m ∧ m.audit = some (.ok r) ∧
      (b.insert users values' ⟨99⟩).1 = .ok m' ∧ m'.audit = some (.ok r') ∧
      r.changes = [⟨"name", none, "Ann"⟩] ∧ r.changes = r'.changes := by
  intro time b ps values values' old old'
  have hvalues : publicPart ps values = publicPart ps values' := by decide +kernel
  obtain ⟨m, r, hm, hr, hchanges⟩ := exists_recorded (b.insert users values ⟨99⟩).1
    (fun _ r => r.changes) (x := [⟨"name", none, "Ann"⟩]) (by decide +kernel)
  obtain ⟨m', r', hm', hr', -⟩ := exists_recorded (b.insert users values' ⟨99⟩).1
    (fun _ _ => ()) (x := ()) (by decide +kernel)
  obtain ⟨hdiffs, -, hrecords⟩ := changes_private
  have hold : (Diff.update (some old)).SamePublic ps (.update (some old')) :=
    .update (by decide +kernel)
  have hsteps : (Step.insert users values ⟨99⟩).SamePublic users ps b b
      (.insert users values' ⟨99⟩) := .insert ⟨99⟩ ⟨99⟩ hvalues
  obtain ⟨hsame, -⟩ := hrecords ps rfl b b _ _ m m' r r' hsteps hm hr hm' hr'
  exact ⟨rfl, hvalues, hdiffs ps values values' _ _ hvalues hold, m, m', r, r', hm, hr, hm', hr',
    hchanges, hsame⟩

end Clientele.Crm
