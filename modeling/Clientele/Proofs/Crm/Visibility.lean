import Clientele.Proofs.Audit.Visibility
import Clientele.Proofs.Crm.ChangeSet
import Clientele.Proofs.Json.Value

/-!
Which changes of a document are seen in the trail. Where the text of a field has changed by an
update, its record tells a change of that field, unless the field holds a list of objects from which
something was only taken away, or in which nothing has another text than in its place before.
-/
set_option autoImplicit false

namespace Clientele.Crm

open Audit (render Unseen LeadsOn)

variable {b : Book} {e : Entity} {id userId : Identifier} {patch previous : Fields} {m : Mutation}
  {r : Audit.Record}

theorem mem_effectivePatch_of_changed (hpatch : patch.keys.Nodup)
    (hkey : patch.has Path.primaryKey = false) {time : Time.Instant} {node : Fields}
    (hnode : node = Store.Collection.patched previous
      (stamped (effectivePatch e previous patch) userId time)) {field : String}
    (hfield : field ∉ updateStamps)
    (hchanged : (previous.get? field).bind render ≠ (node.get? field).bind render) :
    ∃ after, (field, after) ∈ effectivePatch e previous patch ∧ node.get? field = some after := by
  subst hnode
  by_cases hname : field ∈ effectiveNames e patch
  · rw [← keys_effectivePatch e previous] at hname
    obtain ⟨⟨_, after⟩, hmem, rfl⟩ := List.mem_map.mp hname
    exact ⟨after, hmem, get?_patched_of_mem hpatch hkey hmem hfield userId time⟩
  · rw [get?_patched_of_not_mem hname hfield] at hchanged
    exact absurd rfl hchanged

/-- Where the text of a field has changed, the record tells a change of it, unless the change is of
the kind that is not seen; and then it tells none, unless the name of another field is taken for it.
-/
theorem Book.change_seen (hpublic : e.publicFields = none) (hpatch : patch.keys.Nodup)
    (hprevious : b.store.get? e.collection id = some previous)
    (hm : (b.updateOne e id (.obj patch) userId).1 = .ok m) (hr : m.audit = some (.ok r))
    {field : String} (hfield : field ∉ updateStamps)
    (hchanged : (previous.get? field).bind render ≠ (m.node.get? field).bind render) :
    Write.ofRecord r = ⟨.update, e.auditName, id, userId⟩ ∧
    ∃ after, m.node.get? field = some after ∧
      (¬ Unseen (previous.get? field) after →
        ∃ c ∈ r.changes, c.IsAbout field ∧ c.before ≠ c.after) ∧
      (Unseen (previous.get? field) after →
        (∀ other ∈ effectiveNames e patch, ¬ LeadsOn field other ∧ ¬ LeadsOn other field) →
        ∀ c ∈ r.changes, c.IsAbout field → c.before = c.after) := by
  obtain ⟨fields, previous', -, hpayload, hprevious', hnode, hwrite, hchanges, -⟩ :=
    updateOne_recorded hm hr
  obtain ⟨heq, hkey, -⟩ := payload_eq_ok.mp hpayload
  cases heq
  cases hprevious.symm.trans hprevious'
  obtain ⟨after, hmem, hafter⟩ :=
    mem_effectivePatch_of_changed hpatch hkey hnode hfield hchanged
  have htells := Audit.tellsField_fieldChanges (.obj previous) field after
  rw [hafter] at hchanged
  have hseen := htells.forall_eq_iff hchanged
  rw [hchanges, hpublic]
  refine ⟨hwrite, after, hafter, fun hnot => ?_, fun hunseen hapart c hc habout => ?_⟩
  · obtain ⟨c, hc, hdiffer⟩ : ∃ c ∈ Audit.fieldChanges (.obj previous) field after,
        c.before ≠ c.after := by
      simpa only [Classical.not_forall, exists_prop] using mt hseen.mp hnot
    exact ⟨c, Audit.mem_changesOnUpdate.mpr ⟨_, hmem, rfl, hc⟩, htells.isAbout c hc, hdiffer⟩
  · obtain ⟨f, hf, -, hc⟩ := Audit.mem_changesOnUpdate.mp hc
    have hname := Fields.mem_keys hf
    rw [keys_effectivePatch] at hname
    -- The change may come from another field only if that has a name which leads here.
    rcases habout.eq_or_leadsOn ((Audit.tellsField_fieldChanges _ f.1 f.2).isAbout c hc) with
      hsame | hlead | hlead
    · have hvalue : m.node.get? f.1 = some f.2 := by
        rw [hnode]
        exact get?_patched_of_mem hpatch hkey hf (hsame ▸ hfield) userId _
      rw [hsame, hafter] at hvalue
      cases hvalue
      rw [hsame] at hc
      exact hseen.mpr hunseen c hc
    · exact absurd hlead (hapart f.1 hname).1
    · exact absurd hlead (hapart f.1 hname).2

theorem Book.change_seen_checklist :
    let time : Time.Instant := ⟨19844, 36000, 250000000⟩
    let was : Json := .arr [.obj [("title", .str "dial")]]
    let after : Json := .arr [.obj [("title", .str "hang up")], .obj [("title", .str "write")]]
    let task : Fields := [("_id", .str "00000000-0000-0000-0000-000000000007"), ("checklist", was)]
    let b : Book := ⟨(Store.empty.insert "tasks" (.obj task)).2, .memory [], .zero, [],
      ⟨fun n => ⟨BitVec.ofNat 128 n⟩, fun _ => time, 0, 0⟩⟩
    let patch : Fields := [("checklist", after)]
    tasks.publicFields = none ∧ patch.keys.Nodup ∧ "checklist" ∉ updateStamps ∧
      ¬ Unseen (some was) after ∧
      ∃ m r, (b.updateOne tasks ⟨7⟩ (.obj patch) ⟨99⟩).1 = .ok m ∧ m.audit = some (.ok r) ∧
        ∃ c ∈ r.changes, c.IsAbout "checklist" ∧ c.before ≠ c.after := by
  intro time was after task b patch
  have hpatch : patch.keys.Nodup := by decide +kernel
  have hfield : "checklist" ∉ updateStamps := by decide
  have hseen : ¬ Unseen (some was) after := by
    rintro ⟨items, -, heq, hsame⟩
    have hitems : items[0]? = some [("title", .str "hang up")] := by
      have hfirst := congrArg (·[0]?) (Json.arr.inj heq)
      rw [List.getElem?_map] at hfirst
      obtain ⟨item, hitem, hobj⟩ := Option.map_eq_some_iff.mp hfirst.symm
      rw [hitem, Json.obj.inj hobj]
    exact absurd (hsame 0 _ hitems _ List.mem_cons_self) (by decide)
  obtain ⟨m, r, hm, hr, hnode⟩ := exists_recorded (b.updateOne tasks ⟨7⟩ (.obj patch) ⟨99⟩).1
    (fun m _ => m.node.get? "checklist") (x := some after) (by decide +kernel)
  have hprevious : b.store.get? tasks.collection ⟨7⟩ = some task := by decide +kernel
  obtain ⟨-, after', hafter, htold, -⟩ := change_seen rfl hpatch hprevious hm hr hfield
    (by rw [hnode]; decide +kernel)
  cases hnode.symm.trans hafter
  exact ⟨rfl, hpatch, hfield, hseen, m, r, hm, hr, htold hseen⟩

/-- A checklist from which the last item is taken away: all that is told of it is what has stayed.
-/
theorem Book.removal_not_seen :
    let time : Time.Instant := ⟨19844, 36000, 250000000⟩
    let after : Json := .arr [.obj [("title", .str "dial")]]
    let was : Json := .arr [.obj [("title", .str "dial")], .obj [("title", .str "write")]]
    let task : Fields := [("_id", .str "00000000-0000-0000-0000-000000000007"), ("checklist", was)]
    let b : Book := ⟨(Store.empty.insert "tasks" (.obj task)).2, .memory [], .zero, [],
      ⟨fun n => ⟨BitVec.ofNat 128 n⟩, fun _ => time, 0, 0⟩⟩
    tasks.audited = true ∧ tasks.publicFields = none ∧
      b.store.get? tasks.collection ⟨7⟩ = some task ∧
      ∃ m r, (b.updateOne tasks ⟨7⟩ (.obj [("checklist", after)]) ⟨99⟩).1 = .ok m ∧
        m.audit = some (.ok r) ∧ m.node.get? "checklist" = some after ∧
        render was ≠ render after ∧
        r.changes = [⟨"checklist.0.title", "dial", "dial"⟩] ∧
        ¬∃ c ∈ r.changes, c.IsAbout "checklist" ∧ c.before ≠ c.after := by
  intro time after was task b
  obtain ⟨m, r, hm, hr, hview⟩ := exists_recorded
    (b.updateOne tasks ⟨7⟩ (.obj [("checklist", after)]) ⟨99⟩).1
    (fun m r => (m.node.get? "checklist", r.changes))
    (x := (some after, [⟨"checklist.0.title", "dial", "dial"⟩])) (by decide +kernel)
  obtain ⟨hafter, hchanges⟩ := Prod.mk.inj hview
  refine ⟨rfl, rfl, by decide +kernel, m, r, hm, hr, hafter, by decide +kernel, hchanges, ?_⟩
  rintro ⟨c, hc, -, hdiffer⟩
  rw [hchanges] at hc
  exact hdiffer (by rw [List.mem_singleton.mp hc])

end Clientele.Crm
