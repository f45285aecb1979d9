import Clientele.Proofs.Audit.Change
import Mathlib.Data.List.Basic

/-!
What change sets keep to themselves. Under a list of public fields a change set is made of the
public part of what is given, so that two that have this part in common cannot be told apart by it.
-/
set_option autoImplicit false

namespace Clientele.Audit

variable {ps : List String} {values values' : Fields}

def publicPart (ps : List String) (fs : Fields) : Fields := fs.filter fun f => ps.contains f.1

theorem mem_publicPart {fs : Fields} {f : String × Json} :
    f ∈ publicPart ps fs ↔ f ∈ fs ∧ f.1 ∈ ps := by
  rw [publicPart, List.mem_filter, List.contains_iff_mem]

theorem has_publicPart {name : String} (h : name ∈ ps) (fs : Fields) :
    (publicPart ps fs).has name = fs.has name := by
  have hpublic : ps.contains name = true := List.contains_iff_mem.mpr h
  rw [Fields.has, publicPart, Fields.get?_filter ps.contains, if_pos hpublic, Fields.has]

theorem publicPart_implied (ps : List String) (defaults values : Fields) :
    publicPart ps (implied defaults values) =
      implied (publicPart ps defaults) (publicPart ps values) :=
  calc publicPart ps (implied defaults values)
      = implied (publicPart ps defaults) values := List.filter_comm ..
    _ = implied (publicPart ps defaults) (publicPart ps values) :=
      List.filter_congr fun f hf => by rw [has_publicPart (mem_publicPart.mp hf).2]

theorem changesOnCreate_some (ps : List String) (values : Fields) :
    changesOnCreate (some ps) values =
      (publicPart ps values).map fun f => ⟨f.1, none, render f.2⟩ := rfl

/-- Of a new document, of one with defaults, or of a patch with or without the stored document. -/
inductive Diff where
  | create
  | createWithDefaults (defaults : Fields)
  | update (old : Option Json)

namespace Diff

def changes (ps : PublicFields) (values : Fields) : Diff → List Change
  | create => changesOnCreate ps values
  | createWithDefaults defaults => changesWithDefaults ps defaults values
  | update old => changesOnUpdate ps old values

/-- Whether two ways of making a change set are one, with the same public part of all they look at.
-/
inductive SamePublic (ps : List String) : Diff → Diff → Prop
  | create : SamePublic ps create create
  | createWithDefaults {defaults defaults' : Fields}
      (h : publicPart ps defaults = publicPart ps defaults') :
      SamePublic ps (createWithDefaults defaults) (createWithDefaults defaults')
  | withoutOld : SamePublic ps (update none) (update none)
  | update {old old' : Json} (h : ∀ name ∈ ps, old.get? name = old'.get? name) :
      SamePublic ps (update (some old)) (update (some old'))

/-- What is not public makes no difference to a change set. -/
theorem SamePublic.changes_eq {d d' : Diff} (h : d.SamePublic ps d')
    (hvalues : publicPart ps values = publicPart ps values') :
    d.changes (some ps) values = d'.changes (some ps) values' := by
  cases h with
  | create | withoutOld => simp only [changes, changesOnUpdate, changesOnCreate_some, hvalues]
  | createWithDefaults hdefaults =>
    simp only [changes, changesWithDefaults, changesOnCreate_some, publicPart_implied, hdefaults,
      hvalues]
  | @update old old' hold =>
    show (publicPart ps values).flatMap _ = (publicPart ps values').flatMap _
    rw [hvalues, List.flatMap_def, List.flatMap_def]
    refine congrArg List.flatten (List.map_congr_left fun f hf => ?_)
    rw [fieldChanges, fieldChanges, hold f.1 (mem_publicPart.mp hf).2]

theorem isAbout_of_mem_changes {d : Diff} {c : Change} (hc : c ∈ d.changes (some ps) values) :
    ∃ field ∈ ps, c.IsAbout field := by
  have hcreate {fs : Fields} (hc : c ∈ changesOnCreate (some ps) fs) :
      ∃ field ∈ ps, c.IsAbout field := by
    obtain ⟨f, -, hpublic, rfl⟩ := mem_changesOnCreate.mp hc
    exact ⟨f.1, List.contains_iff_mem.mp hpublic, .inl rfl⟩
  cases d with
  | create => exact hcreate hc
  | createWithDefaults defaults =>
    rw [changes, changesWithDefaults_eq] at hc
    exact hcreate hc
  | update old =>
    cases old with
    | none => exact hcreate hc
    | some old =>
      obtain ⟨f, -, hpublic, hc⟩ := mem_changesOnUpdate.mp hc
      exact ⟨f.1, List.contains_iff_mem.mp hpublic,
        (tellsField_fieldChanges old f.1 f.2).isAbout c hc⟩

end Diff

end Clientele.Audit
