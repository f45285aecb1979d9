import Clientele.Proofs.Crm.Effect

/-!
The trail mirrors the writes of a script: one record for each document that is created or updated,
in the order in which this is done. The history of a document that a script creates is therefore its
creation and the updates of it, whether it is still there or not.
-/
set_option autoImplicit false

namespace Clientele.Crm

def Write.ofRecord (r : Audit.Record) : Write := ⟨r.action, r.targetEntity, r.targetId, r.userId⟩

namespace Book

variable {settings : Settings} {b b' : Book} {ws : List Write} {n : Nat}

namespace Effect

/-- A step whose record is not refused adds the record of its write to the trail. -/
theorem records (h : b.Effect b' ws) (hclock : b.KeepsTime)
    (hfailures : b'.counters.auditWriteFailures = b.counters.auditWriteFailures)
    {rs : List Audit.Record} (hrs : b.records = .ok rs) :
    ∃ rs', b'.records = .ok (rs ++ rs') ∧ rs'.map Write.ofRecord = ws := by
  cases h with
  | silent h =>
    refine ⟨[], ?_, rfl⟩
    rw [h.records, hrs, List.append_nil]
  | @recorded written h w changes hw =>
    rw [← h.noFailure] at hfailures
    rw [← h.records] at hrs
    exact ⟨_, records_record _ _ _ _ _ _ (hclock.of_precedes h.toPrecedes) hfailures hrs, rfl⟩

theorem failures_eq (h : b.Effect b' ws) (hfresh : b.Fresh n) (hn : b'.supply.idsDrawn ≤ n)
    (ht : b.trail.IsReliable) :
    b'.counters.auditWriteFailures = b.counters.auditWriteFailures := by
  cases h with
  | silent h => exact h.noFailure
  | @recorded written h w changes hw =>
    rw [supply_record] at hn
    rw [failures_record _ _ _ _ _ _ (hfresh.of_precedes h.toPrecedes) hn (h.trail ▸ ht)]
    exact h.noFailure

theorem exists_id (h : b.Effect b' ws) {w : Write} (hw : w ∈ ws) (hcreate : w.action = .create) :
    ∃ i, b.supply.idsDrawn ≤ i ∧ i < b'.supply.idsDrawn ∧ w.id = b.supply.id i := by
  cases h with
  | silent h => cases hw
  | @recorded written h v changes haccounts =>
    obtain rfl := List.mem_singleton.mp hw
    rw [Accounts, hcreate] at haccounts
    obtain ⟨i, hfirst, hlast, hid⟩ := haccounts
    rw [supply_record]
    exact ⟨i, hfirst, Nat.lt_succ_of_lt hlast, hid⟩

theorem id_ne (h : b.Effect b' ws) (hfresh : b.Fresh n) {w : Write} (hw : w ∈ ws) {j : Nat}
    (hj : b'.supply.idsDrawn ≤ j) (hn : j < n) : w.id ≠ b.supply.id j := by
  have hdrawn := Nat.le_trans h.precedes.drawn hj
  cases haction : w.action with
  | create =>
    obtain ⟨i, -, hi, hid⟩ := h.exists_id hw haction
    rw [hid]
    exact hfresh.distinct i j (Nat.lt_of_lt_of_le hi hj) hdrawn hn
  | update =>
    cases h with
    | silent h => cases hw
    | @recorded written h v changes haccounts =>
      obtain rfl := List.mem_singleton.mp hw
      rw [Accounts, haction] at haccounts
      obtain ⟨name, hknown⟩ := haccounts
      intro heq
      rw [heq, hfresh.unknown name j hdrawn hn] at hknown
      cases hknown

theorem pairwise (h : b.Effect b' ws) (R : Write → Write → Prop) : ws.Pairwise R := by
  cases h with
  | silent h => exact .nil
  | recorded h w changes hw => exact List.pairwise_singleton R w

end Effect

section

variable {ss : List Step} (hss : ∀ s ∈ ss, s.IsAllowed)
include hss

theorem precedes_runSteps : b.Precedes (b.runSteps settings ss) := by
  induction ss generalizing b with
  | nil => exact .refl b
  | cons s ss ih =>
    rw [List.forall_mem_cons] at hss
    exact (s.effect settings b hss.1).precedes.trans (ih hss.2)

theorem records_runSteps (hclock : b.KeepsTime)
    (hfailures : (b.runSteps settings ss).counters.auditWriteFailures =
      b.counters.auditWriteFailures) {rs : List Audit.Record} (hrs : b.records = .ok rs) :
    ∃ rs', (b.runSteps settings ss).records = .ok (rs ++ rs') ∧
      rs'.map Write.ofRecord = b.writesOf settings ss := by
  induction ss generalizing b rs with
  | nil => exact ⟨[], by rw [runSteps, hrs, List.append_nil], rfl⟩
  | cons s ss ih =>
    rw [List.forall_mem_cons] at hss
    have heffect := s.effect settings b hss.1
    -- The counter never goes down, so a run without a refused record has no step with one.
    have hrest : (s.run settings b).2.counters.auditWriteFailures ≤
        ((s.run settings b).2.runSteps settings ss).counters.auditWriteFailures :=
      (precedes_runSteps hss.2).failures
    have hfirst := heffect.precedes.failures
    rw [runSteps] at hfailures
    obtain ⟨rs₁, hrs₁, hws₁⟩ := heffect.records hclock (by omega) hrs
    obtain ⟨rs₂, hrs₂, hws₂⟩ :=
      ih hss.2 (hclock.of_precedes heffect.precedes) (by omega) hrs₁
    refine ⟨rs₁ ++ rs₂, by rw [runSteps, hrs₂, List.append_assoc], ?_⟩
    rw [List.map_append, hws₁, hws₂, writesOf]

theorem failures_runSteps (hfresh : b.Fresh n) (hn : (b.runSteps settings ss).supply.idsDrawn ≤ n)
    (ht : b.trail.IsReliable) :
    (b.runSteps settings ss).counters.auditWriteFailures = b.counters.auditWriteFailures := by
  induction ss generalizing b with
  | nil => rfl
  | cons s ss ih =>
    rw [List.forall_mem_cons] at hss
    have heffect := s.effect settings b hss.1
    have hfirst := heffect.precedes
    have hrest : (s.run settings b).2.supply.idsDrawn ≤ n :=
      Nat.le_trans (precedes_runSteps hss.2).drawn hn
    rw [runSteps, ih hss.2 (hfresh.of_precedes hfirst) hn (hfirst.reliable.mpr ht)]
    exact heffect.failures_eq hfresh hrest ht

theorem exists_id_of_mem_writesOf {w : Write} (hw : w ∈ b.writesOf settings ss)
    (hcreate : w.action = .create) :
    ∃ i, b.supply.idsDrawn ≤ i ∧ i < (b.runSteps settings ss).supply.idsDrawn ∧
      w.id = b.supply.id i := by
  induction ss generalizing b with
  | nil => cases hw
  | cons s ss ih =>
    rw [List.forall_mem_cons] at hss
    have heffect := s.effect settings b hss.1
    rcases List.mem_append.mp hw with hw | hw
    · obtain ⟨i, hfirst, hlast, hid⟩ := heffect.exists_id hw hcreate
      exact ⟨i, hfirst, Nat.lt_of_lt_of_le hlast (precedes_runSteps hss.2).drawn, hid⟩
    · obtain ⟨i, hfirst, hlast, hid⟩ := ih hss.2 hw
      rw [heffect.precedes.ids] at hid
      exact ⟨i, Nat.le_trans heffect.precedes.drawn hfirst, hlast, hid⟩

/-- Nothing is written under an identifier before the document is created that it is drawn for. -/
theorem pairwise_writesOf (hfresh : b.Fresh n)
    (hn : (b.runSteps settings ss).supply.idsDrawn ≤ n) :
    (b.writesOf settings ss).Pairwise fun v w => w.action = .create → v.id ≠ w.id := by
  induction ss generalizing b with
  | nil => exact .nil
  | cons s ss ih =>
    rw [List.forall_mem_cons] at hss
    have heffect := s.effect settings b hss.1
    refine List.pairwise_append.mpr ⟨heffect.pairwise _,
      ih hss.2 (hfresh.of_precedes heffect.precedes) hn, ?_⟩
    intro v hv w hw hcreate
    obtain ⟨i, hfirst, hlast, hid⟩ := exists_id_of_mem_writesOf hss.2 hw hcreate
    rw [hid, heffect.precedes.ids]
    exact heffect.id_ne hfresh hv hfirst (Nat.lt_of_lt_of_le hlast hn)

end

theorem filter_of_pairwise {before after : List Write} {w : Write} (hcreate : w.action = .create)
    (h : (before ++ w :: after).Pairwise fun v w => w.action = .create → v.id ≠ w.id) :
    ((before ++ w :: after).filter fun v => v.entity == w.entity && v.id == w.id) =
        w :: after.filter (fun v => v.entity == w.entity && v.id == w.id) ∧
      ∀ v ∈ after, v.id = w.id → v.action = .update := by
  obtain ⟨-, hafter, hbefore⟩ := List.pairwise_append.mp h
  have hnone : (before.filter fun v => v.entity == w.entity && v.id == w.id) = [] := by
    rw [List.filter_eq_nil_iff]
    intro v hv
    have hne := hbefore v hv w List.mem_cons_self hcreate
    simp [hne]
  refine ⟨by simp [List.filter_append, hnone], fun v hv hid => ?_⟩
  cases haction : v.action with
  | create => exact absurd hid.symm ((List.pairwise_cons.mp hafter).1 v hv haction)
  | update => rfl

/-- The records of a script on the entities of the catalog, from an empty trail that refuses none of
them, are its writes in their order. The history of a document that it creates under a fresh
identifier is one creation, and then the updates of the document. -/
theorem records_runAll (settings : Settings) {b : Book} {calls : List Call}
    (hcalls : ∀ c ∈ calls, c.entity ∈ catalog) (hempty : b.records = .ok [])
    (hclock : b.KeepsTime)
    (hwrites : (b.runAll settings calls).counters.auditWriteFailures =
      b.counters.auditWriteFailures) :
    (∃ rs, (b.runAll settings calls).records = .ok rs ∧
      rs.map Write.ofRecord = b.writes settings calls) ∧
    (b.Fresh (b.runAll settings calls).supply.idsDrawn →
      ∀ before w after, b.writes settings calls = before ++ w :: after → w.action = .create →
        ∃ rs, (b.runAll settings calls).history w.entity w.id = .ok rs ∧
          rs.map Write.ofRecord =
            w :: after.filter (fun v => v.entity == w.entity && v.id == w.id) ∧
          ∀ v ∈ after, v.id = w.id → v.action = .update) := by
  have hsteps : ∀ s ∈ b.stepsOf settings calls, s.IsAllowed :=
    fun s hs => isAllowed_of_mem_stepsOf hcalls hs
  have hrun := b.runSteps_stepsOf settings calls
  rw [← hrun] at hwrites ⊢
  obtain ⟨rs, hrs, hws⟩ := records_runSteps hsteps hclock hwrites hempty
  rw [List.nil_append] at hrs
  refine ⟨⟨rs, hrs, hws⟩, ?_⟩
  intro hfresh before w after hsplit hcreate
  have hpairwise := pairwise_writesOf hsteps hfresh (Nat.le_refl _)
  rw [← writes, hsplit] at hpairwise
  obtain ⟨hfilter, hupdates⟩ := filter_of_pairwise hcreate hpairwise
  refine ⟨Audit.history rs w.entity w.id, by rw [history, hrs]; rfl, ?_, hupdates⟩
  rw [← hfilter, ← hsplit, writes, ← hws, List.filter_map]
  rfl

theorem records_runAll_removed :
    let time : Time.Instant := ⟨19844, 36000, 250000000⟩
    let b : Book := ⟨.empty, .documents, .zero, [],
      ⟨fun n => ⟨BitVec.ofNat 128 n⟩, fun _ => time, 0, 0⟩⟩
    let calls : List Call := [.createOne companies (.obj [("name", .str "Initech")]) ⟨99⟩,
      .updateMany companies none (.obj [("name", .str "Initrode")]) ⟨98⟩,
      .deleteOne companies ⟨0⟩, .updateOne companies ⟨0⟩ (.obj []) ⟨98⟩]
    let created : Write := ⟨.create, "Company", ⟨0⟩, ⟨99⟩⟩
    let updated : Write := ⟨.update, "Company", ⟨0⟩, ⟨98⟩⟩
    (∀ c ∈ calls, c.entity ∈ catalog) ∧ b.records = .ok [] ∧ b.KeepsTime ∧
      (b.runAll .standard calls).counters.auditWriteFailures = b.counters.auditWriteFailures ∧
      b.Fresh (b.runAll .standard calls).supply.idsDrawn ∧
      ∃ rs, (b.runAll .standard calls).history "Company" ⟨0⟩ = .ok rs ∧
        rs.map Write.ofRecord = [created, updated] := by
  intro time b calls created updated
  have hcalls : ∀ c ∈ calls, c.entity ∈ catalog := by
    have hcompanies : companies ∈ catalog := by simp [catalog]
    simp only [calls, List.forall_mem_cons]
    exact ⟨hcompanies, hcompanies, hcompanies, hcompanies, by simp⟩
  have htime : time.toMillisPrecision.IsRecorded :=
    ⟨by decide, by decide, by decide, fun h => absurd h (by decide)⟩
  have hclock : b.KeepsTime := fun _ _ => htime
  have hdrawn : (b.runAll .standard calls).supply.idsDrawn = 3 := by decide +kernel
  have hfresh : b.Fresh (b.runAll .standard calls).supply.idsDrawn := by
    refine ⟨fun i j hij _ hj heq => ?_, fun name i _ _ => rfl⟩
    rw [hdrawn] at hj
    have hbits := congrArg (fun k => k.bits.toNat) heq
    simp only [b, BitVec.toNat_ofNat] at hbits
    omega
  have hfailures : (b.runAll .standard calls).counters.auditWriteFailures =
      b.counters.auditWriteFailures := by decide +kernel
  have hwrites : b.writes .standard calls = [] ++ created :: [updated] := by decide +kernel
  obtain ⟨rs, hrs, hws, -⟩ := (records_runAll .standard hcalls rfl hclock hfailures).2 hfresh
    [] created [updated] hwrites rfl
  exact ⟨hcalls, rfl, hclock, hfailures, hfresh, rs, hrs, hws⟩

theorem failures_runAll (settings : Settings) {b : Book} {calls : List Call}
    (hcalls : ∀ c ∈ calls, c.entity ∈ catalog) (ht : b.trail.IsReliable)
    (hfresh : b.Fresh (b.runAll settings calls).supply.idsDrawn) :
    (b.runAll settings calls).counters.auditWriteFailures = b.counters.auditWriteFailures := by
  rw [← b.runSteps_stepsOf settings calls] at hfresh ⊢
  exact failures_runSteps (fun s hs => isAllowed_of_mem_stepsOf hcalls hs) hfresh (Nat.le_refl _) ht

end Book

end Clientele.Crm
