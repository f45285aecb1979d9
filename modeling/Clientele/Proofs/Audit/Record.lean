import Clientele.Audit.Record
import Clientele.Proofs.Identifier
import Clientele.Proofs.Time.Stamp

/-!
Changes and records are read back from what they are written as, as long as a stamp can hold their
times.
-/
set_option autoImplicit false

namespace Clientele

theorem Json.listOf?_map {α : Type} {read : Json → Option α} {write : α → Json} {xs : List α}
    (h : ∀ x ∈ xs, read (write x) = some x) : Json.listOf? read (.arr (xs.map write)) = some xs := by
  show (xs.map write).mapM read = some xs
  induction xs with
  | nil => rfl
  | cons x xs ih =>
    rw [List.map_cons, List.mapM_cons, h x (by simp), ih fun y hy => h y (by simp [hy])]
    rfl

namespace Audit

theorem Change.ofJson?_toJson (c : Change) : Change.ofJson? c.toJson = some c := by
  obtain ⟨field, before, after⟩ := c
  cases before <;> cases after <;> rfl

theorem Action.ofJson?_name (a : Action) : Action.ofJson? (.str a.name) = some a := by
  cases a <;> rfl

theorem Action.ofJournal?_name (a : Action) : Action.ofJournal? (.str a.name) = some a := by
  cases a <;> rfl

namespace Record

structure IsRecorded (r : Record) : Prop where
  createdAt : r.createdAt.IsRecorded
  updatedAt : r.updatedAt.IsRecorded

theorem stamp?_millis {t : Time.Instant} (h : t.IsRecorded) : stamp? (.str t.millis) = some t := by
  rw [stamp?, Json.text?, Option.bind_some, h.strict?_millis]

theorem ofJsonBy?_of_slots {action? : Json → Option Action}
    (haction : ∀ a, action? (.str a.name) = some a) {r : Record} (h : r.IsRecorded) {v : Json}
    (hslots : v.slots? ["id", "action", "targetEntity", "targetId", "changes", "userId",
      "createdAt", "updatedAt"] = some (r.toFields.map fun f => some f.2)) :
    ofJsonBy? action? v = some r := by
  have hchanges : Json.listOf? Change.ofJson? (.arr (r.changes.map Change.toJson)) =
      some r.changes := Json.listOf?_map fun c _ => c.ofJson?_toJson
  simp only [ofJsonBy?, hslots, toFields, List.map_cons, List.map_nil, Identifier.ofJson?_toJson,
    haction, Json.text?, hchanges, stamp?_millis h.createdAt, stamp?_millis h.updatedAt,
    Option.bind_eq_bind, Option.bind_some]
  rfl

theorem ofJson?_toJson {r : Record} (h : r.IsRecorded) : ofJson? r.toJson = some r :=
  ofJsonBy?_of_slots Action.ofJson?_name h rfl

theorem ofJournal?_toJson {r : Record} (h : r.IsRecorded) : ofJournal? r.toJson = some r :=
  ofJsonBy?_of_slots Action.ofJournal?_name h rfl

end Record

theorem isSome_modifyLast {α : Type} (p : α → Bool) (f : α → α) (xs : List α) :
    (modifyLast p f xs).isSome = xs.any p := by
  induction xs with
  | nil => rfl
  | cons x xs ih =>
    rw [modifyLast, List.any_cons, ← ih]
    cases modifyLast p f xs with
    | some ys => exact (Bool.or_true _).symm
    | none => cases hx : p x <;> simp

theorem map_modifyLast {α β : Type} {p : α → Bool} {f : α → α} {xs ys : List α}
    (h : modifyLast p f xs = some ys) (g : α → β) (hg : ∀ x, g (f x) = g x) : ys.map g = xs.map g := by
  induction xs generalizing ys with
  | nil => cases h
  | cons x xs ih =>
    rw [modifyLast] at h
    split at h
    · rename_i hlast
      cases h
      rw [List.map_cons, ih hlast, List.map_cons]
    · split at h <;> cases h
      rw [List.map_cons, hg, List.map_cons]

theorem length_modifyLast {α : Type} {p : α → Bool} {f : α → α} {xs ys : List α}
    (h : modifyLast p f xs = some ys) : ys.length = xs.length := by
  have hunits := map_modifyLast h (fun _ => ()) fun _ => rfl
  simpa using congrArg List.length hunits

end Audit

end Clientele
