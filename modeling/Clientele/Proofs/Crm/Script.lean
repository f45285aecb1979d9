import Clientele.Proofs.Crm.Gateway
import Clientele.Proofs.Outcome

/-!
Scripts of calls on the gateway. A call does one thing, or several in turn until one of them fails;
a whole script therefore does to a book what a list of single steps does.
-/
set_option autoImplicit false

namespace Clientele.Crm

inductive Call where
  | createOne (e : Entity) (values : Json) (userId : Identifier)
  | createMany (e : Entity) (values : List Json) (userId : Identifier)
  | updateOne (e : Entity) (id : Identifier) (patch : Json) (userId : Identifier)
  | updateMany (e : Entity) (filter : Option Filter.Tree) (patch : Json) (userId : Identifier)
  | deleteOne (e : Entity) (id : Identifier)
  | deleteMany (e : Entity) (filter : Option Filter.Tree)
  | find (e : Entity) (q : Query.Criteria)
  | findOne (e : Entity) (id : Identifier)

inductive Answer where
  | mutation (m : Mutation)
  | mutations (ms : List Mutation)
  | document (doc : Fields)
  | documents (docs : List Fields)
  | page (c : Query.Connection)
  | found (v : Option Json)

def answering {α β : Type} (f : α → β) (r : Except Error α × Book) : Except Error β × Book :=
  (r.1.map f, r.2)

namespace Call

def entity : Call → Entity
  | createOne e .. | createMany e .. | updateOne e .. | updateMany e .. | deleteOne e ..
  | deleteMany e .. | find e .. | findOne e .. => e

def payloads : Call → List Json
  | createOne _ values _ => [values]
  | createMany _ values _ => values
  | updateOne _ _ patch _ | updateMany _ _ patch _ => [patch]
  | _ => []

def run (settings : Settings) (b : Book) : Call → Except Error Answer × Book
  | createOne e values userId => answering .mutation (b.createOne e values userId)
  | createMany e values userId => answering .mutations (b.createMany e values userId)
  | updateOne e id patch userId => answering .mutation (b.updateOne e id patch userId)
  | updateMany e filter patch userId => answering .mutations (b.updateMany e filter patch userId)
  | deleteOne e id => answering .document (b.deleteOne e id)
  | deleteMany e filter => answering .documents (b.deleteMany e filter)
  | find e q => answering .page (b.find settings e q)
  | findOne e id => (.ok (.found (b.findOne e id)), b)

end Call

def Book.runAll (settings : Settings) (b : Book) : List Call → Book
  | [] => b
  | c :: cs => Book.runAll settings (c.run settings b).2 cs

structure Write where
  action : Audit.Action
  entity : String
  id : Identifier
  userId : Identifier
  deriving DecidableEq

/-- The single things that calls do. -/
inductive Step where
  | insert (e : Entity) (values : Fields) (userId : Identifier)
  | update (e : Entity) (id : Identifier) (patch : Json) (userId : Identifier)
  | delete (e : Entity) (id : Identifier)
  | find (e : Entity) (q : Query.Criteria)

namespace Step

/-- Takes a step, and tells what it has written when it succeeds. -/
def run (settings : Settings) (b : Book) : Step → Except Error (Option Write) × Book
  | insert e values userId =>
    answering (fun m => (Store.documentId? m.node).map fun id => ⟨.create, e.auditName, id, userId⟩)
      (b.insert e values userId)
  | update e id patch userId =>
    answering (fun _ => some ⟨.update, e.auditName, id, userId⟩) (b.updateOne e id patch userId)
  | delete e id => answering (fun _ => none) (b.deleteOne e id)
  | find e q => answering (fun _ => none) (b.find settings e q)

def writes (settings : Settings) (b : Book) (s : Step) : List Write :=
  match (s.run settings b).1 with
  | .ok (some w) => [w]
  | _ => []

/-- What calls on the entities of the catalog come down to. -/
def IsAllowed : Step → Prop
  | insert e values _ => e ∈ catalog ∧ writable e = .ok () ∧ payload (.obj values) = .ok values
  | update e .. | delete e .. | find e .. => e ∈ catalog

end Step

namespace Book

def runSteps (settings : Settings) (b : Book) : List Step → Book
  | [] => b
  | s :: ss => runSteps settings (s.run settings b).2 ss

def writesOf (settings : Settings) (b : Book) : List Step → List Write
  | [] => []
  | s :: ss => s.writes settings b ++ writesOf settings (s.run settings b).2 ss

def untilFailure (settings : Settings) (b : Book) : List Step → List Step
  | [] => []
  | s :: ss =>
    match s.run settings b with
    | (.error _, _) => [s]
    | (.ok _, b) => s :: untilFailure settings b ss

end Book

/-- The steps that a call consists of. -/
def Call.plan (b : Book) : Call → List Step
  | createOne e values userId =>
    match writable e, payload values with
    | .ok (), .ok values => [.insert e values userId]
    | _, _ => []
  | createMany e values userId =>
    match writable e, values.mapM payload with
    | .ok (), .ok payloads => payloads.map fun values => .insert e values userId
    | _, _ => []
  | updateOne e id patch userId => [.update e id patch userId]
  | updateMany e filter patch userId =>
    match writable e, b.matchingIds e filter with
    | .ok (), .ok ids => ids.map fun id => .update e id patch userId
    | _, _ => []
  | deleteOne e id => [.delete e id]
  | deleteMany e filter =>
    match writable e, b.matchingIds e filter with
    | .ok (), .ok ids => ids.map fun id => .delete e id
    | _, _ => []
  | find e q => [.find e q]
  | findOne .. => []

def Call.steps (settings : Settings) (b : Book) (c : Call) : List Step :=
  b.untilFailure settings (c.plan b)

namespace Book

def stepsOf (settings : Settings) (b : Book) : List Call → List Step
  | [] => []
  | c :: cs => c.steps settings b ++ stepsOf settings (c.run settings b).2 cs

/-- The documents that a script creates and updates, in their order. -/
def writes (settings : Settings) (b : Book) (cs : List Call) : List Write :=
  b.writesOf settings (b.stepsOf settings cs)

variable {settings : Settings} {b : Book}

theorem runSteps_append (b : Book) (ss ts : List Step) :
    b.runSteps settings (ss ++ ts) = (b.runSteps settings ss).runSteps settings ts := by
  induction ss generalizing b with
  | nil => rfl
  | cons s ss ih => exact ih (s.run settings b).2

theorem mem_of_mem_untilFailure {s : Step} {ss : List Step}
    (h : s ∈ b.untilFailure settings ss) : s ∈ ss := by
  induction ss generalizing b with
  | nil => cases h
  | cons t ss ih =>
    unfold untilFailure at h
    split at h
    · rw [List.mem_singleton.mp h]
      exact List.mem_cons_self
    · rcases List.mem_cons.mp h with rfl | h
      · exact List.mem_cons_self
      · exact List.mem_cons_of_mem t (ih h)

theorem untilFailure_singleton (settings : Settings) (b : Book) (s : Step) :
    b.untilFailure settings [s] = [s] := by
  unfold untilFailure
  split <;> rfl

theorem untilFailure_cons {s : Step} {b b' : Book} {w : Option Write}
    (h : s.run settings b = (.ok w, b')) (ss : List Step) :
    b.untilFailure settings (s :: ss) = s :: b'.untilFailure settings ss := by
  rw [untilFailure, h]

theorem runSteps_untilFailure_map {α β : Type} {f : Book → α → Except Error β × Book}
    {step : α → Step} {write : α → β → Option Write}
    (h : ∀ b x, (step x).run settings b = answering (write x) (f b x)) (b : Book) (xs : List α) :
    b.runSteps settings (b.untilFailure settings (xs.map step)) = (b.each f xs).2 := by
  induction xs generalizing b with
  | nil => rfl
  | cons x xs ih =>
    rcases hf : f b x with ⟨answer, b'⟩
    have hrun : (step x).run settings b = (answer.map (write x), b') := by rw [h, hf]; rfl
    rw [List.map_cons, each, hf]
    cases answer with
    | error e =>
      rw [untilFailure, hrun]
      exact congrArg Prod.snd hrun
    | ok y =>
      rw [untilFailure_cons hrun, runSteps, hrun]
      exact ih b'

theorem runSteps_untilFailure_singleton (b : Book) (s : Step) :
    b.runSteps settings (b.untilFailure settings [s]) = (s.run settings b).2 := by
  rw [untilFailure_singleton, runSteps, runSteps]

end Book

namespace Call

theorem runSteps_steps (settings : Settings) (b : Book) (c : Call) :
    b.runSteps settings (c.steps settings b) = (c.run settings b).2 := by
  cases c with
  | createOne e values userId =>
    simp only [steps, plan, run, answering, Book.createOne]
    cases writable e with
    | error err => rfl
    | ok u =>
      cases payload values with
      | error err => rfl
      | ok fields => exact Book.runSteps_untilFailure_singleton b _
  | createMany e values userId =>
    simp only [steps, plan, run, answering, Book.createMany]
    cases writable e with
    | error err => rfl
    | ok u =>
      cases values.mapM payload with
      | error err => rfl
      | ok payloads => exact Book.runSteps_untilFailure_map (fun _ _ => rfl) b payloads
  | updateOne e id patch userId => exact Book.runSteps_untilFailure_singleton b _
  | updateMany e filter patch userId =>
    simp only [steps, plan, run, answering, Book.updateMany]
    cases writable e with
    | error err => rfl
    | ok u =>
      cases b.matchingIds e filter with
      | error err => rfl
      | ok ids => exact Book.runSteps_untilFailure_map (fun _ _ => rfl) b ids
  | deleteOne e id => exact Book.runSteps_untilFailure_singleton b _
  | deleteMany e filter =>
    simp only [steps, plan, run, answering, Book.deleteMany]
    cases writable e with
    | error err => rfl
    | ok u =>
      cases b.matchingIds e filter with
      | error err => rfl
      | ok ids => exact Book.runSteps_untilFailure_map (fun _ _ => rfl) b ids
  | find e q => exact Book.runSteps_untilFailure_singleton b _
  | findOne e id => rfl

/-- Every step of a call is on its entity, and writes nothing but what it brings. -/
theorem of_mem_plan {b : Book} {c : Call} {s : Step} (hs : s ∈ c.plan b) :
    (∃ values userId, s = .insert c.entity values userId ∧ writable c.entity = .ok () ∧
      payload (.obj values) = .ok values ∧ .obj values ∈ c.payloads) ∨
    (∃ id patch userId, s = .update c.entity id patch userId ∧ patch ∈ c.payloads) ∨
    (∃ id, s = .delete c.entity id) ∨ ∃ q, s = .find c.entity q := by
  cases c with
  | createOne e values userId =>
    simp only [plan] at hs
    split at hs
    · rename_i fields hwritable hpayload
      obtain rfl := (payload_eq_ok.mp hpayload).1
      rw [List.mem_singleton.mp hs]
      exact .inl ⟨_, _, rfl, hwritable, hpayload, List.mem_cons_self⟩
    · cases hs
  | createMany e values userId =>
    simp only [plan] at hs
    split at hs
    · rename_i payloads hwritable hpayloads
      obtain ⟨fields, hfields, rfl⟩ := List.mem_map.mp hs
      obtain ⟨v, hmem, hv⟩ := Except.exists_of_mem_mapM hpayloads hfields
      obtain rfl := (payload_eq_ok.mp hv).1
      exact .inl ⟨_, _, rfl, hwritable, hv, hmem⟩
    · cases hs
  | updateOne e id patch userId =>
    rw [List.mem_singleton.mp hs]
    exact .inr (.inl ⟨_, _, _, rfl, List.mem_cons_self⟩)
  | updateMany e filter patch userId =>
    simp only [plan] at hs
    split at hs
    · obtain ⟨id, -, rfl⟩ := List.mem_map.mp hs
      exact .inr (.inl ⟨_, _, _, rfl, List.mem_cons_self⟩)
    · cases hs
  | deleteOne e id =>
    rw [List.mem_singleton.mp hs]
    exact .inr (.inr (.inl ⟨id, rfl⟩))
  | deleteMany e filter =>
    simp only [plan] at hs
    split at hs
    · obtain ⟨id, -, rfl⟩ := List.mem_map.mp hs
      exact .inr (.inr (.inl ⟨id, rfl⟩))
    · cases hs
  | find e q =>
    rw [List.mem_singleton.mp hs]
    exact .inr (.inr (.inr ⟨q, rfl⟩))
  | findOne e id => cases hs

theorem isAllowed_of_mem_plan {b : Book} {c : Call} (hc : c.entity ∈ catalog) {s : Step}
    (hs : s ∈ c.plan b) : s.IsAllowed := by
  rcases of_mem_plan hs with ⟨values, userId, rfl, hwritable, hpayload, -⟩ |
    ⟨id, patch, userId, rfl, -⟩ | ⟨id, rfl⟩ | ⟨q, rfl⟩
  · exact ⟨hc, hwritable, hpayload⟩
  all_goals exact hc

end Call

namespace Book

variable {settings : Settings} {b : Book}

theorem runSteps_stepsOf (settings : Settings) (b : Book) (cs : List Call) :
    b.runSteps settings (b.stepsOf settings cs) = b.runAll settings cs := by
  induction cs generalizing b with
  | nil => rfl
  | cons c cs ih => rw [stepsOf, runSteps_append, c.runSteps_steps, ih, runAll]

theorem isAllowed_of_mem_stepsOf {cs : List Call} (hcs : ∀ c ∈ cs, c.entity ∈ catalog) {s : Step}
    (hs : s ∈ b.stepsOf settings cs) : s.IsAllowed := by
  induction cs generalizing b with
  | nil => cases hs
  | cons c cs ih =>
    rcases List.mem_append.mp hs with hs | hs
    · exact Call.isAllowed_of_mem_plan (hcs c List.mem_cons_self) (mem_of_mem_untilFailure hs)
    · exact ih (fun d hd => hcs d (List.mem_cons_of_mem c hd)) hs

end Book

end Clientele.Crm
