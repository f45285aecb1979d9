import Mathlib.Data.List.Basic
import Clientele.Document.Path
import Clientele.Proofs.Json.Fields
import Clientele.Proofs.Json.Value

/-!
Where a path leads. A path that goes on by a name leads where the rest of it leads from what is at
its beginning, be this a list of what many items have there. What is written at a path is found
there, and where only objects stand on the way nothing beside it changes.
-/
set_option autoImplicit false

namespace Clientele

def Path.append (p q : Path) : Path := ⟨p.segments ++ q.segments⟩

theorem Path.segments_under {key : String} (h : Text.splitText '.' key = [key]) (p : Path) :
    (p.under key).segments = p.segments ++ [key] := by
  rw [under, h]

namespace Json

variable {s : String} {rest : List String}

theorem resolve_nil (v : Json) : resolve v [] = some v := by rw [resolve]

theorem resolveField_eq (fs : Fields) (s : String) (rest : List String) :
    resolveField fs s rest = (fs.get? s).bind (resolve · rest) := by
  induction fs with
  | nil => rfl
  | cons f fs ih =>
    obtain ⟨k, v⟩ := f
    by_cases hk : k = s <;> simp [resolveField, Fields.get?, hk, ih]

theorem resolveItem_eq (xs : List Json) (i : Nat) (rest : List String) :
    resolveItem xs i rest = xs[i]?.bind (resolve · rest) := by
  induction xs generalizing i with
  | nil => rfl
  | cons x xs ih =>
    cases i with
    | zero => rfl
    | succ i => exact ih i

theorem resolveEach_eq (xs : List Json) (path : List String) :
    resolveEach xs path = xs.filterMap (resolve · path) := by
  induction xs with
  | nil => rfl
  | cons x xs ih =>
    rw [resolveEach, List.filterMap_cons, ih]
    cases resolve x path <;> rfl

def collected : List Json → Option Json
  | [] => none
  | v :: vs => some (.arr (v :: vs))

theorem resolve_obj (fs : Fields) (s : String) (rest : List String) :
    resolve (.obj fs) (s :: rest) = (fs.get? s).bind (resolve · rest) := by
  rw [resolve, resolveField_eq]

theorem resolve_item {i : Nat} (h : index? s = some i) (xs : List Json) (rest : List String) :
    resolve (.arr xs) (s :: rest) = xs[i]?.bind (resolve · rest) := by
  rw [resolve, h]
  exact resolveItem_eq xs i rest

theorem resolve_each (h : index? s = none) (xs : List Json) (rest : List String) :
    resolve (.arr xs) (s :: rest) = collected (xs.filterMap (resolve · (s :: rest))) := by
  rw [resolve, h, resolveEach_eq]
  cases xs.filterMap (resolve · (s :: rest)) <;> rfl

theorem bind_collected (vs : List Json) {q : List String} (hq : ∀ s ∈ q.head?, index? s = none) :
    (collected vs).bind (resolve · q) = collected (vs.filterMap (resolve · q)) := by
  cases vs with
  | nil => rfl
  | cons v vs =>
    cases q with
    | nil => simp [collected, resolve_nil]
    | cons s rest => exact resolve_each (hq s rfl) (v :: vs) rest

/-- A path that goes on by a name. Going on by an index is another matter: of what is collected it
takes one, of the items something each. -/
theorem resolve_append (v : Json) (p : List String) {q : List String}
    (hq : ∀ s ∈ q.head?, index? s = none) :
    resolve v (p ++ q) = (resolve v p).bind (resolve · q) := by
  -- on the value and not on the path, for a name leaves the path as it is when it comes to a list
  induction v using induct generalizing p with
  | obj fs ih =>
    cases p with
    | nil => rw [List.nil_append, resolve_nil, Option.bind_some]
    | cons s rest =>
      rw [List.cons_append, resolve_obj, resolve_obj, Option.bind_assoc]
      exact Option.bind_congr fun w hw => ih (s, w) (Fields.mem_of_get? hw) rest
  | arr xs ih =>
    cases p with
    | nil => rw [List.nil_append, resolve_nil, Option.bind_some]
    | cons s rest =>
      rw [List.cons_append]
      cases hs : index? s with
      | some i =>
        rw [resolve_item hs, resolve_item hs, Option.bind_assoc]
        exact Option.bind_congr fun x hx => ih x (List.mem_of_getElem? hx) rest
      | none =>
        rw [resolve_each hs, resolve_each hs, bind_collected _ hq, List.filterMap_filterMap]
        exact congrArg collected (List.filterMap_congr fun x hx => ih x hx (s :: rest))
  | null | bool | num | str =>
    cases p with
    | nil => rw [List.nil_append, resolve_nil, Option.bind_some]
    | cons => rfl

theorem get?_fields (v : Json) (key : String) : Fields.get? (v.fields?.getD []) key = v.get? key := by
  rw [get?]
  cases v.fields? <;> rfl

theorem resolve_of_get? {v w : Json} (h : v.get? s = some w) (rest : List String) :
    resolve v (s :: rest) = resolve w rest := by
  cases v with
  | obj fs => rw [resolve_obj, show Fields.get? fs s = some w from h, Option.bind_some]
  | _ => cases h

/-- What is written at a path is found there. -/
theorem resolve_setSegments (new : Json) (p : List String) (v : Json) :
    resolve (setSegments new p v) p = some new := by
  induction p generalizing v with
  | nil => rw [setSegments, resolve_nil]
  | cons s p ih => rw [setSegments, resolve_obj, Fields.get?_update_self, Option.bind_some, ih]

theorem setSegments_setSegments (new new' : Json) (p : List String) (v : Json) :
    setSegments new' p (setSegments new p v) = setSegments new' p v := by
  induction p generalizing v with
  | nil => rfl
  | cons s p ih =>
    simp only [setSegments, fields?, Option.getD_some, Fields.update_update, ih]

/-- Whether two paths part before either of them ends. -/
def diverge : List String → List String → Bool
  | s :: p, t :: q => s ≠ t || diverge p q
  | _, _ => false

theorem diverge_iff {p q : List String} : diverge p q ↔ ¬p <+: q ∧ ¬q <+: p := by
  induction p generalizing q with
  | nil => simp [diverge]
  | cons s p ih =>
    cases q with
    | nil => simp [diverge]
    | cons t q =>
      by_cases hst : s = t
      · subst hst
        simp [diverge, ih]
      · simp [diverge, List.cons_prefix_cons, hst, Ne.symm hst]

theorem resolve_of_setSegments {new : Json} {p q : List String} (h : diverge p q) {v w : Json}
    (hw : resolve (setSegments new p v) q = some w) : resolve v q = some w := by
  induction p generalizing q v with
  | nil => cases h
  | cons s p ih =>
    cases q with
    | nil => cases h
    | cons t q =>
      rw [setSegments, resolve_obj] at hw
      by_cases hst : s = t
      · subst hst
        have hdiverge : diverge p q := by simpa [diverge] using h
        rw [Fields.get?_update_self, get?_fields, Option.bind_some] at hw
        have hbelow := ih hdiverge hw
        cases hget : v.get? s with
        | none =>
          -- what is written below is written into a new object, which has nothing else
          rw [hget, Option.getD_none] at hbelow
          cases q with
          | nil => cases p <;> cases hdiverge
          | cons => cases hbelow
        | some u =>
          rw [hget, Option.getD_some] at hbelow
          rwa [resolve_of_get? hget]
      · rw [Fields.get?_update_of_ne hst, get?_fields] at hw
        obtain ⟨u, hget, hu⟩ := Option.bind_eq_some_iff.mp hw
        rwa [resolve_of_get? hget]

/-- Whether writing at a path only adds to objects: nothing else stands on the way. -/
def IsOpenTo (v : Json) (p : List String) : Prop :=
  ∀ q w, q <+: p → q ≠ p → resolve v q = some w → ∃ fs, w = .obj fs

theorem IsOpenTo.below {fs : Fields} {p : List String} (h : IsOpenTo (.obj fs) (s :: p)) :
    IsOpenTo ((fs.get? s).getD (.obj [])) p := by
  intro q w hq hne hw
  cases hget : fs.get? s with
  | none =>
    rw [hget, Option.getD_none] at hw
    cases q with
    | nil => exact ⟨[], (Option.some.inj ((resolve_nil _).symm.trans hw)).symm⟩
    | cons => cases hw
  | some u =>
    rw [hget, Option.getD_some] at hw
    refine h (s :: q) w (List.prefix_cons_inj s |>.mpr hq) (fun heq => hne (List.cons.inj heq).2) ?_
    rwa [resolve_obj, hget, Option.bind_some]

/-- Where nothing is replaced on the way, writing changes nothing at a path that parts from its own.
-/
theorem resolve_setSegments_of_diverge {new : Json} {p q : List String} (h : diverge p q) {v : Json}
    (hway : IsOpenTo v p) : resolve (setSegments new p v) q = resolve v q := by
  induction p generalizing q v with
  | nil => cases h
  | cons s p ih =>
    cases q with
    | nil => cases h
    | cons t q =>
      obtain ⟨fs, rfl⟩ := hway [] v (List.nil_prefix) (List.cons_ne_nil s p).symm (resolve_nil v)
      rw [setSegments, resolve_obj, resolve_obj]
      by_cases hst : s = t
      · subst hst
        have hdiverge : diverge p q := by simpa [diverge] using h
        rw [Fields.get?_update_self, Option.bind_some]
        refine (ih hdiverge hway.below).trans ?_
        cases Fields.get? fs s with
        | none =>
          cases q with
          | nil => cases p <;> cases hdiverge
          | cons => rfl
        | some u => rfl
      · rw [Fields.get?_update_of_ne hst]
        rfl

/-- After a path has been written it is open: what stood on the way has been replaced. -/
theorem isOpenTo_setSegments (new : Json) (p : List String) (v : Json) :
    IsOpenTo (setSegments new p v) p := by
  induction p generalizing v with
  | nil => exact fun q _ hq hne => absurd (List.prefix_nil.mp hq) hne
  | cons s p ih =>
    intro q w hq hne hw
    cases q with
    | nil => exact ⟨_, (Option.some.inj ((resolve_nil _).symm.trans hw)).symm⟩
    | cons t q =>
      obtain ⟨rfl, hbelow⟩ := List.cons_prefix_cons.mp hq
      rw [setSegments, resolve_obj, Fields.get?_update_self, Option.bind_some] at hw
      exact ih _ q w hbelow (fun heq => hne (congrArg _ heq)) hw

theorem IsOpenTo.sibling {v : Json} {p : List String} (h : IsOpenTo v (p ++ [s])) (t : String) :
    IsOpenTo v (p ++ [t]) := by
  intro q w hq hne hw
  have hway : q <+: p := (List.prefix_concat_iff.mp hq).resolve_left hne
  refine h q w (hway.trans (List.prefix_append p [s])) (fun heq => ?_) hw
  have hlength := hway.length_le
  rw [heq, List.length_append, List.length_singleton] at hlength
  omega

end Json

end Clientele
