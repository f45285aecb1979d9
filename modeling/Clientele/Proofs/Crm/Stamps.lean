import Clientele.Proofs.Crm.ChangeSet

/-!
What the trail tells of the author and the times of a document. A document carries the stamps of the
write, whatever its payload says, while the trail tells the payload. The two agree where the payload
brings no value of its own under a name that is stamped, or one with the same text, and only there.
-/
set_option autoImplicit false

namespace Clientele.Crm

open Audit (Change isPublic render recordList?)

def stampNames : List String := creationStamps ++ updateStamps

def creationStampsOf (userId : Identifier) (time : Time.Instant) : Fields :=
  [("createdById", userId.toJson), ("createdAt", .str time.millis), ("updatedAt", .str time.millis)]

def updateStampsOf (userId : Identifier) (time : Time.Instant) : Fields :=
  [("updatedById", userId.toJson), ("updatedAt", .str time.millis)]

/-- Whether changes tell of stamped fields what a document holds. -/
def TellsStamps (node : Fields) (changes : List Change) : Prop :=
  ∀ c ∈ changes, c.field ∈ stampNames → c.after = (node.get? c.field).bind render

namespace Step

/-- What a step in a book stamps on the document that it writes. -/
def stamps (b : Book) : Step → Fields
  | insert _ _ userId => creationStampsOf userId b.now.1
  | update _ _ _ userId => updateStampsOf userId b.now.1
  | _ => []

/-- Whether the payload of a step brings a value that is told under its own name. -/
def Brings (name : String) (v : Json) : Step → Prop
  | insert e values _ => (name, v) ∈ values ∧ isPublic e.publicFields name = true
  | update e _ (.obj patch) _ =>
    (name, v) ∈ withoutBlanks patch ∧ isPublic e.publicFields name = true ∧ recordList? v = none
  | _ => False

/-- Whether changes tell of the names that are stamped what the payload of a step brings under them,
and nothing else. -/
def Tells (s : Step) (changes : List Change) : Prop :=
  ∀ name ∈ stampNames, ∀ text,
    (∃ c ∈ changes, c.field = name ∧ c.after = text) ↔ ∃ v, s.Brings name v ∧ render v = text

end Step

theorem Step.Tells.tellsStamps_iff {s : Step} {changes : List Change} (htold : s.Tells changes)
    {stamps node : Fields} (hnames : ∀ name ∈ stamps.keys, name ∈ stampNames)
    (hstamps : ∀ stamp ∈ stamps, node.get? stamp.1 = some stamp.2)
    (hkept : ∀ name ∈ stampNames, name ∉ stamps.keys → ∀ v, s.Brings name v →
      node.get? name = some v) :
    TellsStamps node changes ↔
      ∀ stamp ∈ stamps, ∀ v, s.Brings stamp.1 v → render v = render stamp.2 := by
  constructor
  · intro h stamp hstamp v hbrings
    have hname := hnames _ (Fields.mem_keys hstamp)
    obtain ⟨c, hc, hfield, hafter⟩ := (htold _ hname _).mpr ⟨v, hbrings, rfl⟩
    have htells := h c hc (hfield ▸ hname)
    rwa [hfield, hafter, hstamps stamp hstamp] at htells
  · intro h c hc hname
    obtain ⟨v, hbrings, hv⟩ := (htold _ hname _).mp ⟨c, hc, rfl, rfl⟩
    rw [← hv]
    by_cases hstamped : c.field ∈ stamps.keys
    · obtain ⟨stamp, hstamp, heq⟩ := List.mem_map.mp hstamped
      rw [← heq] at hbrings ⊢
      rw [hstamps stamp hstamp]
      exact h stamp hstamp v hbrings
    · rw [hkept _ hname hstamped v hbrings]
      rfl

section

variable {e : Entity} {values : Fields}

theorem get?_newDocument_of_mem_stamps (e : Entity) (id userId : Identifier) (time : Time.Instant)
    (values : Fields) : ∀ stamp ∈ creationStampsOf userId time,
      (newDocument e id userId time values).get? stamp.1 = some stamp.2 := by
  simp [creationStampsOf, newDocument, Fields.get?_set]

theorem get?_newDocument_of_mem (hvalues : values.keys.Nodup) {f : String × Json} (hf : f ∈ values)
    (hstamp : f.1 ∉ creationStamps) (id userId : Identifier) (time : Time.Instant) :
    (newDocument e id userId time values).get? f.1 = some f.2 := by
  simp only [creationStamps, List.mem_cons, not_or] at hstamp
  simp only [newDocument, Fields.get?_set, Ne.symm hstamp.1, Ne.symm hstamp.2.1,
    Ne.symm hstamp.2.2.1, if_false]
  exact Fields.get?_overlay_of_mem hvalues hf _

theorem defaults_not_mem_stampNames (he : e ∈ catalog) : ∀ f ∈ e.defaults, f.1 ∉ stampNames := by
  have hall : catalog.all fun e => e.defaults.all fun f => decide (f.1 ∉ stampNames) := by decide
  intro f hf
  exact of_decide_eq_true (List.all_eq_true.mp (List.all_eq_true.mp hall e he) f hf)

theorem tells_insert (he : e ∈ catalog) (values : Fields) (userId : Identifier) :
    (Step.insert e values userId).Tells
      (Audit.changesWithDefaults e.publicFields e.defaults values) := by
  intro name hname text
  rw [Audit.changesWithDefaults_eq]
  constructor
  · rintro ⟨c, hc, hfield, hafter⟩
    obtain ⟨f, hf, hpublic, rfl⟩ := Audit.mem_changesOnCreate.mp hc
    cases hfield
    cases hafter
    rcases List.mem_append.mp hf with hf | hf
    · exact absurd hname (defaults_not_mem_stampNames he f (List.mem_filter.mp hf).1)
    · exact ⟨f.2, ⟨hf, hpublic⟩, rfl⟩
  · rintro ⟨v, ⟨hv, hpublic⟩, rfl⟩
    exact ⟨_, Audit.mem_changesOnCreate.mpr ⟨_, List.mem_append_right _ hv, hpublic, rfl⟩, rfl, rfl⟩

end

section

variable {e : Entity} {patch : Fields}

theorem get?_patched_of_mem_stamps (e : Entity) (hpatch : patch.keys.Nodup) (previous : Fields)
    (userId : Identifier) (time : Time.Instant) : ∀ stamp ∈ updateStampsOf userId time,
      (Store.Collection.patched previous
        (stamped (effectivePatch e previous patch) userId time)).get? stamp.1 = some stamp.2 := by
  have hnames : ∀ name ∈ updateStamps, name ≠ Path.primaryKey := by decide
  intro stamp hstamp
  have hname : stamp.1 ∈ updateStamps := List.mem_map_of_mem (f := (·.1)) hstamp
  rw [get?_patched e hpatch previous userId time (hnames _ hname)]
  simp only [updateStampsOf, List.mem_cons, List.not_mem_nil, or_false] at hstamp
  rcases hstamp with rfl | rfl <;> simp [stamped, Fields.get?_set]

theorem mem_priced_iff {f : String × Json} (hf : f.1 ∉ ["items", "subTotal", "total"])
    (stored : Option Json) (patch : Fields) : f ∈ priced stored patch ↔ f ∈ patch := by
  simp only [List.mem_cons, not_or] at hf
  obtain ⟨hitems, hsub, htotal, -⟩ := hf
  have hwith (subtotal : Float) : f ∈ withItems patch subtotal ↔ f ∈ patch := by
    unfold withItems
    split
    · exact Iff.rfl
    · rw [Fields.mem_set_iff_of_ne hsub, Fields.mem_set_iff_of_ne hitems]
    · rw [Fields.mem_set_iff_of_ne hsub]
  unfold priced
  split
  · rw [Fields.mem_set_iff_of_ne htotal, hwith]
  · exact Iff.rfl

theorem mem_effectivePatch_iff {f : String × Json} (hf : f.1 ∉ ["items", "subTotal", "total"])
    (e : Entity) (previous patch : Fields) :
    f ∈ effectivePatch e previous patch ↔ f ∈ withoutBlanks patch := by
  unfold effectivePatch
  split
  · exact mem_priced_iff hf _ _
  · exact Iff.rfl

theorem plain_of_mem_stampNames : ∀ name ∈ stampNames,
    name ∉ ["items", "subTotal", "total"] ∧ '.' ∉ name.toList := by decide

theorem tells_update (e : Entity) (id userId : Identifier) (previous patch : Fields) :
    (Step.update e id (.obj patch) userId).Tells
      (Audit.changesOnUpdate e.publicFields (some (.obj previous))
        (effectivePatch e previous patch)) := by
  intro name hname text
  obtain ⟨hprice, hdot⟩ := plain_of_mem_stampNames name hname
  constructor
  · rintro ⟨c, hc, rfl, rfl⟩
    obtain ⟨f, hf, hpublic, hc⟩ := Audit.mem_changesOnUpdate.mp hc
    obtain ⟨hwhole, rfl⟩ := Audit.eq_of_mem_fieldChanges hc hdot
    exact ⟨f.2, ⟨(mem_effectivePatch_iff hprice e previous patch).mp hf, hpublic, hwhole⟩, rfl⟩
  · rintro ⟨v, ⟨hv, hpublic, hwhole⟩, rfl⟩
    have hmem := (mem_effectivePatch_iff (f := (name, v)) hprice e previous patch).mpr hv
    have hchange := Audit.fieldChanges_of_recordList?_eq_none hwhole (.obj previous) name
    exact ⟨_, Audit.mem_changesOnUpdate.mpr
      ⟨_, hmem, hpublic, by rw [hchange]; exact List.mem_singleton_self _⟩, rfl, rfl⟩

end

variable {settings : Settings} {b : Book} {m : Mutation} {r : Audit.Record}

/-- The stamps of a step are on the document that it writes. The record of it tells what its payload
brings, which is what the document holds exactly where the payload brings the stamps as they are, or
not at all. -/
theorem Step.tellsStamps_iff {c : Call} (hc : c.entity ∈ catalog)
    (hkeys : ∀ v ∈ c.payloads, v.DistinctKeys) {b₀ : Book} {s : Step} (hs : s ∈ c.plan b₀)
    (hm : s.Yields b m) (hr : m.audit = some (.ok r)) :
    (∀ stamp ∈ s.stamps b, m.node.get? stamp.1 = some stamp.2) ∧ s.Tells r.changes ∧
    (TellsStamps m.node r.changes ↔
      ∀ stamp ∈ s.stamps b, ∀ v, s.Brings stamp.1 v → render v = render stamp.2) := by
  rcases Call.of_mem_plan hs with ⟨values, userId, rfl, -, -, hmem⟩ |
    ⟨id, patch, userId, rfl, hmem⟩ | ⟨id, rfl⟩ | ⟨q, rfl⟩
  · obtain ⟨hnode, -, hchanges, -⟩ := Book.insert_recorded hm hr
    rw [hnode, hchanges]
    have hstamps := get?_newDocument_of_mem_stamps c.entity (b.supply.id b.supply.idsDrawn) userId
      b.now.1 values
    have htells := tells_insert hc values userId
    refine ⟨hstamps, htells, htells.tellsStamps_iff (fun _ => List.mem_append_left _) hstamps ?_⟩
    intro name _ hstamp v hbrings
    exact get?_newDocument_of_mem (hkeys _ hmem) hbrings.1 hstamp _ _ _
  · obtain ⟨fields, previous, -, hpayload, -, hnode, -, hchanges, -⟩ :=
      Book.updateOne_recorded hm hr
    obtain ⟨rfl, hkey, -⟩ := payload_eq_ok.mp hpayload
    rw [hnode, hchanges]
    have hstamps := get?_patched_of_mem_stamps c.entity (hkeys _ hmem) previous userId b.now.1
    have htells := tells_update c.entity id userId previous fields
    refine ⟨hstamps, htells, htells.tellsStamps_iff (fun _ => List.mem_append_right _) hstamps ?_⟩
    intro name hname hstamp v hbrings
    have hplain := (plain_of_mem_stampNames name hname).1
    exact get?_patched_of_mem (hkeys _ hmem) hkey
      ((mem_effectivePatch_iff hplain c.entity previous fields).mpr hbrings.1) hstamp _ _
  all_goals cases hm

/-- Where a call on an entity succeeds, and the record of a document that it has written does too,
the document has the author and the time of the step that has written it. The record tells the
author and the time that the payload brings, if it brings any: these are those of the document
exactly where they have the same text. -/
theorem Call.stamps_told_iff (settings : Settings) {b : Book} {c : Call} (hc : c.entity ∈ catalog)
    (hkeys : ∀ v ∈ c.payloads, v.DistinctKeys) {answer : Answer}
    (hrun : (c.run settings b).1 = .ok answer) {i : Nat} {m : Mutation}
    (hm : answer.written[i]? = some m) {r : Audit.Record} (hr : m.audit = some (.ok r)) :
    ∃ s, (c.steps settings b)[i]? = some s ∧
      let stamps := s.stamps (b.runSteps settings ((c.steps settings b).take i))
      (∀ stamp ∈ stamps, m.node.get? stamp.1 = some stamp.2) ∧ s.Tells r.changes ∧
      (TellsStamps m.node r.changes ↔
        ∀ stamp ∈ stamps, ∀ v, s.Brings stamp.1 v → render v = render stamp.2) := by
  obtain ⟨s, hs, hget, hyields⟩ := Call.yieldsAt hrun hm
  exact ⟨s, hget, Step.tellsStamps_iff hc hkeys hs hyields hr⟩

theorem Call.stamps_told_iff_author :
    let time : Time.Instant := ⟨19844, 36000, 250000000⟩
    let task : Fields := [("_id", .str "00000000-0000-0000-0000-000000000007"),
      ("title", .str "Call Bob")]
    let b : Book := ⟨(Store.empty.insert "tasks" (.obj task)).2, .memory [], .zero, [],
      ⟨fun n => ⟨BitVec.ofNat 128 n⟩, fun _ => time, 0, 0⟩⟩
    let patch : Fields := [("updatedById", Identifier.toJson ⟨99⟩), ("completed", .bool true)]
    let c : Call := .updateOne tasks ⟨7⟩ (.obj patch) ⟨99⟩
    c.entity ∈ catalog ∧ (∀ v ∈ c.payloads, v.DistinctKeys) ∧
      ∃ m r, (c.run .standard b).1 = .ok (.mutation m) ∧ m.audit = some (.ok r) ∧
        TellsStamps m.node r.changes := by
  intro time task b patch c
  have hc : c.entity ∈ catalog := by simp [c, Call.entity, catalog]
  have hkeys : ∀ v ∈ c.payloads, v.DistinctKeys := by
    simp [c, patch, payloads, Json.DistinctKeys, Fields.keys]
  obtain ⟨m, r, hm, hr, -⟩ := exists_recorded (b.updateOne tasks ⟨7⟩ (.obj patch) ⟨99⟩).1
    (fun _ _ => ()) (x := ()) (by decide +kernel)
  have hrun : (c.run .standard b).1 = .ok (.mutation m) := run_updateOne hm
  obtain ⟨s, hs, -, -, htells⟩ := stamps_told_iff .standard hc hkeys hrun (i := 0) rfl hr
  have hsteps : c.steps .standard b = [.update tasks ⟨7⟩ (.obj patch) ⟨99⟩] :=
    Book.untilFailure_singleton .standard b _
  rw [hsteps] at hs
  cases hs
  refine ⟨hc, hkeys, m, r, hrun, hr, htells.mpr ?_⟩
  simp [Step.stamps, updateStampsOf, Step.Brings, withoutBlanks, patch, Identifier.toJson]

/-- A new deal whose payload names another author: the deal has the author who has created it, and
the record tells the other one. -/
theorem Call.author_misreported :
    let time : Time.Instant := ⟨19844, 36000, 250000000⟩
    let b : Book := ⟨Store.empty, .memory [], .zero, [],
      ⟨fun n => ⟨BitVec.ofNat 128 n⟩, fun _ => time, 0, 0⟩⟩
    let other : String := "00000000-0000-0000-0000-000000000013"
    let c : Call := .createOne deals
      (.obj [("title", .str "Renewal"), ("createdById", .str other)]) ⟨99⟩
    ∃ m r, (c.run .standard b).1 = .ok (.mutation m) ∧ m.audit = some (.ok r) ∧
      (m.node.get? "createdById").bind render = some (Identifier.text ⟨99⟩) ∧
      r.changes = [⟨"title", none, "Renewal"⟩, ⟨"createdById", none, other⟩] ∧
      ¬ TellsStamps m.node r.changes := by
  intro time b other c
  obtain ⟨m, r, hm, hr, hview⟩ := exists_recorded
    (b.createOne deals (.obj [("title", .str "Renewal"), ("createdById", .str other)]) ⟨99⟩).1
    (fun m r => ((m.node.get? "createdById").bind render, r.changes))
    (x := (some (Identifier.text ⟨99⟩),
      [⟨"title", none, "Renewal"⟩, ⟨"createdById", none, other⟩])) (by decide +kernel)
  obtain ⟨hauthor, hchanges⟩ := Prod.mk.inj hview
  have hrun : (c.run .standard b).1 = .ok (.mutation m) := run_createOne hm
  refine ⟨m, r, hrun, hr, hauthor, hchanges, fun htells => ?_⟩
  have htold := htells ⟨"createdById", none, other⟩ (by rw [hchanges]; simp) (by decide)
  rw [hauthor] at htold
  exact absurd htold (by decide +kernel)

end Clientele.Crm
