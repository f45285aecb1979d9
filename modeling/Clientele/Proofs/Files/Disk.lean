import Clientele.Files.Disk
import Clientele.Proofs.Files.Tree
import Clientele.Proofs.Outcome

/-!
What operations on a disk do to what stands at the end of each way, and what they cannot do: folders
stay where they are, so that a route leads to the same place after any of them.
-/
set_option autoImplicit false

namespace Clientele.Disk

open FileTree (Kind Way Entries)

def kindAt (d : Disk) (way : Way) : Option Kind := d.root.kindAt way

variable {d d' d'' : Disk} {r : Route} {way way' : Way} {part : String} {parts : List String}
  {es : Entries} {s : Site}

theorem entriesAt_eq_ok : d.entriesAt way = .ok es ↔ d.root.find? way = some (.folder es) := by
  unfold entriesAt
  split
  · rename_i fs h
    simp [h]
  · rename_i text h
    simp [h]
  · rename_i h
    simp [h]

theorem kindAt_of_entriesAt (h : d.entriesAt way = .ok es) : d.kindAt way = some .folder :=
  FileTree.kindAt_of_find? (entriesAt_eq_ok.mp h)

theorem exists_entriesAt (h : d.kindAt way = some .folder) : ∃ es, d.entriesAt way = .ok es := by
  obtain ⟨es, hes⟩ := FileTree.exists_of_kindAt_folder h
  exact ⟨es, entriesAt_eq_ok.mpr hes⟩

theorem isSome_child? (h : d.entriesAt way = .ok es) (name : String) :
    (FileTree.child? es name).isSome = (d.kindAt (way ++ [name])).isSome := by
  rw [kindAt, FileTree.kindAt_append_of_find? (entriesAt_eq_ok.mp h), FileTree.kindAt_folder_cons]
  cases FileTree.child? es name <;> rfl

inductive Leads (d : Disk) (way : Way) : String → Way → Prop
  | idle {part : String} (h : Route.isIdle part = true) : Leads d way part way
  | up (h : Route.isIdle ".." = false) : Leads d way ".." way.dropLast
  | down {name : String} (hname : Route.isName name = true) (hsize : name.utf8ByteSize ≤ maxNameSize)
    (hthere : (d.kindAt (way ++ [name])).isSome) : Leads d way name (way ++ [name])

theorem step_eq_ok :
    d.step way part = .ok way' ↔ d.kindAt way = some .folder ∧ d.Leads way part way' := by
  constructor
  · intro h
    obtain ⟨es, hes, h⟩ := Except.bind_eq_ok_iff.mp h
    refine ⟨kindAt_of_entriesAt hes, ?_⟩
    split at h
    · rename_i hidle
      cases h
      exact .idle hidle
    rename_i hidle
    split at h
    · rename_i hup
      cases h
      subst hup
      exact .up rfl
    rename_i hup
    split at h
    · cases h
    rename_i hsize
    split at h
    · rename_i hthere
      cases h
      refine .down ?_ (Nat.not_lt.mp hsize) ((isSome_child? hes part) ▸ hthere)
      simp [Route.isName, hidle, hup]
    · cases h
  · rintro ⟨hfolder, hleads⟩
    obtain ⟨es, hes⟩ := exists_entriesAt hfolder
    refine Except.bind_eq_ok_iff.mpr ⟨es, hes, ?_⟩
    cases hleads with
    | idle hidle => simp [hidle, pure, Except.pure]
    | up hidle => simp [hidle, pure, Except.pure]
    | down hname hsize hthere =>
      simp only [Route.isName, Bool.and_eq_true, Bool.not_eq_true', bne_iff_ne] at hname
      rw [← isSome_child? hes] at hthere
      simp [hname.1, hname.2, Nat.not_lt.mpr hsize, hthere, pure, Except.pure]

/-- Where a route begins. -/
def base (d : Disk) (r : Route) : Way := if r.fromRoot then [] else d.here

theorem walk_eq_ok :
    d.walk r parts = .ok way ↔
      routeFault? r = none ∧ parts.foldlM d.step (d.base r) = .ok way := by
  unfold walk
  split
  · rename_i fault h
    simp [h]
  · rename_i h
    simp [h, base]

theorem foldlM_step_cons :
    (part :: parts).foldlM d.step way = .ok way' ↔
      ∃ w, d.step way part = .ok w ∧ parts.foldlM d.step w = .ok way' := by
  rw [List.foldlM_cons]
  exact Except.bind_eq_ok_iff

theorem foldlM_step_append {more : List String} :
    (parts ++ more).foldlM d.step way = .ok way' ↔
      ∃ w, parts.foldlM d.step way = .ok w ∧ more.foldlM d.step w = .ok way' := by
  rw [List.foldlM_append]
  exact Except.bind_eq_ok_iff

theorem foldlM_step_replicate (h : d.kindAt way = some .folder) (n : Nat) :
    (List.replicate n "").foldlM d.step way = .ok way := by
  induction n with
  | zero => rfl
  | succ n ih => exact foldlM_step_cons.mpr ⟨way, step_eq_ok.mpr ⟨h, .idle rfl⟩, ih⟩

theorem find?_eq_some {t : FileTree} :
    d.find? r = some t ↔ ∃ way, d.locate r = .ok way ∧ d.root.find? way = some t := by
  rw [find?]
  cases d.locate r <;> simp [Except.toOption]

theorem isFolder_iff :
    d.isFolder r ↔ ∃ way, d.locate r = .ok way ∧ d.kindAt way = some .folder := by
  constructor
  · intro h
    unfold isFolder at h
    split at h
    · rename_i es hes
      obtain ⟨way, hway, hfind⟩ := find?_eq_some.mp hes
      exact ⟨way, hway, FileTree.kindAt_of_find? hfind⟩
    · cases h
  · rintro ⟨way, hway, hkind⟩
    obtain ⟨es, hes⟩ := FileTree.exists_of_kindAt_folder hkind
    rw [isFolder, find?_eq_some.mpr ⟨way, hway, hes⟩]

theorem kindAt_eq_file {text : String} :
    d.kindAt way = some (.file text) ↔ d.root.find? way = some (.file text) := by
  rw [kindAt, FileTree.kindAt]
  cases d.root.find? way with
  | none => simp
  | some t => cases t <;> simp [FileTree.kind]

theorem find?_eq_file {text : String} :
    d.find? r = some (.file text) ↔
      ∃ way, d.locate r = .ok way ∧ d.kindAt way = some (.file text) := by
  simp only [find?_eq_some, kindAt_eq_file]

theorem read_eq_ok {text : String} :
    d.read r = .ok text ↔ ∃ way, d.locate r = .ok way ∧ d.kindAt way = some (.file text) := by
  unfold read
  rw [Except.bind_eq_ok_iff]
  refine exists_congr fun way => and_congr_right fun _ => ?_
  rw [kindAt_eq_file]
  split
  · rename_i text' h
    simp [h, pure, Except.pure]
  · rename_i es h
    simp [h, throw, throwThe, MonadExceptOf.throw]
  · rename_i h
    simp [h, throw, throwThe, MonadExceptOf.throw]

def Site.place (s : Site) : Way := s.folder ++ [s.name]

structure Site.IsAt (s : Site) (d : Disk) (r : Route) (parts : List String) : Prop where
  walk : d.walk r parts.dropLast = .ok s.folder
  entries : d.entriesAt s.folder = .ok s.entries
  isName : Route.isName s.name = true
  size : s.name.utf8ByteSize ≤ maxNameSize
  parts_eq : parts.dropLast ++ [s.name] = parts

theorem site_eq_ok (h : d.site r parts = .ok s) : s.IsAt d r parts := by
  obtain ⟨way, hway, h⟩ := Except.bind_eq_ok_iff.mp h
  obtain ⟨es, hes, h⟩ := Except.bind_eq_ok_iff.mp h
  simp only at h
  split at h
  · cases h
  rename_i hname
  split at h
  · cases h
  rename_i hsize
  cases h
  rw [Bool.not_eq_true', Bool.not_eq_false] at hname
  refine ⟨hway, hes, hname, Nat.not_lt.mp hsize, ?_⟩
  rcases List.eq_nil_or_concat parts with rfl | ⟨parts, name, rfl⟩
  · exact absurd hname (by decide)
  · simp

theorem Site.IsAt.kindAt_folder (h : s.IsAt d r parts) : d.kindAt s.folder = some .folder :=
  kindAt_of_entriesAt h.entries

theorem Site.IsAt.kindAt_place (h : s.IsAt d r parts) :
    d.kindAt s.place = s.content?.map FileTree.kind := by
  rw [kindAt, Site.place, FileTree.kindAt_append_of_find? (entriesAt_eq_ok.mp h.entries),
    FileTree.kindAt_folder_cons, Site.content?]
  cases FileTree.child? s.entries s.name <;> rfl

theorem Site.IsAt.isPart (h : s.IsAt d r parts) (hparts : ∀ p ∈ parts, Route.IsPart p) :
    Route.IsPart s.name := by
  refine hparts _ ?_
  rw [← h.parts_eq]
  simp

theorem Site.IsAt.place_eq (h : s.IsAt d r parts) (hwalk : d.walk r parts = .ok way) :
    way = s.place ∧ (d.kindAt s.place).isSome := by
  obtain ⟨-, hwalk⟩ := walk_eq_ok.mp hwalk
  rw [← h.parts_eq] at hwalk
  obtain ⟨w, hw, hlast⟩ := foldlM_step_append.mp hwalk
  cases hw.symm.trans (walk_eq_ok.mp h.walk).2
  obtain ⟨w', hstep, hnil⟩ := foldlM_step_cons.mp hlast
  cases hnil
  have hname := h.isName
  simp only [Route.isName, Bool.and_eq_true, Bool.not_eq_true', bne_iff_ne] at hname
  obtain ⟨-, hleads⟩ := step_eq_ok.mp hstep
  generalize heq : s.name = name at hleads hname
  cases hleads with
  | idle hidle => cases hname.1.symm.trans hidle
  | up => exact absurd rfl hname.2
  | down _ _ hthere =>
    rw [Site.place, heq]
    exact ⟨rfl, hthere⟩

structure Keeps (d d' : Disk) : Prop where
  here : d'.here = d.here
  folders : ∀ way, d.kindAt way = some .folder → d'.kindAt way = some .folder
  tidy : d.root.IsTidy → d'.root.IsTidy

theorem Keeps.refl (d : Disk) : d.Keeps d := ⟨rfl, fun _ h => h, fun h => h⟩

theorem Keeps.trans (h : d.Keeps d') (h' : d'.Keeps d'') : d.Keeps d'' :=
  ⟨h'.here.trans h.here, fun way hway => h'.folders way (h.folders way hway),
    fun ht => h'.tidy (h.tidy ht)⟩

theorem Keeps.base (h : d.Keeps d') (r : Route) : d'.base r = d.base r := by
  rw [Disk.base, Disk.base, h.here]

theorem Keeps.foldlM_step (h : d.Keeps d') (hrun : parts.foldlM d.step way = .ok way')
    (hthere : (d'.kindAt way').isSome) : parts.foldlM d'.step way = .ok way' := by
  induction parts generalizing way with
  | nil => exact hrun
  | cons part parts ih =>
    obtain ⟨w, hstep, hrest⟩ := foldlM_step_cons.mp hrun
    obtain ⟨hfolder, hleads⟩ := step_eq_ok.mp hstep
    -- What is walked on from is a folder, and only the end of the way may be a file.
    have hw : (d'.kindAt w).isSome := by
      cases parts with
      | nil =>
        cases hrest
        exact hthere
      | cons next parts =>
        obtain ⟨_, hnext, -⟩ := foldlM_step_cons.mp hrest
        rw [h.folders w (step_eq_ok.mp hnext).1]
        rfl
    refine foldlM_step_cons.mpr ⟨w, step_eq_ok.mpr ⟨h.folders way hfolder, ?_⟩, ih hrest⟩
    cases hleads with
    | idle hidle => exact .idle hidle
    | up hidle => exact .up hidle
    | down hname hsize _ => exact .down hname hsize hw

theorem Keeps.walk (h : d.Keeps d') (hwalk : d.walk r parts = .ok way)
    (hthere : (d'.kindAt way).isSome) : d'.walk r parts = .ok way := by
  obtain ⟨hfault, hrun⟩ := walk_eq_ok.mp hwalk
  exact walk_eq_ok.mpr ⟨hfault, by rw [h.base]; exact h.foldlM_step hrun hthere⟩

theorem Keeps.isFolder (h : d.Keeps d') (hr : d.isFolder r) : d'.isFolder r := by
  obtain ⟨way, hlocate, hkind⟩ := isFolder_iff.mp hr
  have hkind' := h.folders way hkind
  exact isFolder_iff.mpr ⟨way, h.walk hlocate (by rw [hkind']; rfl), hkind'⟩

/-- What stands at the end of one way is another thing than before, and neither is a folder with
anything in it. -/
structure Sets (d d' : Disk) (way : Way) (k? : Option Kind) : Prop where
  here : d'.here = d.here
  free : d.kindAt way ≠ some .folder
  kindAt : ∀ other, d'.kindAt other = if other = way then k? else d.kindAt other
  tidy : d.root.IsTidy → d'.root.IsTidy

theorem Sets.keeps {k? : Option Kind} (h : d.Sets d' way k?) : d.Keeps d' := by
  refine ⟨h.here, fun other hother => ?_, h.tidy⟩
  have hne : other ≠ way := by
    rintro rfl
    exact h.free hother
  rw [h.kindAt, if_neg hne, hother]

theorem Sets.walk_place {k : Kind} (h : d.Sets d' s.place (some k)) (hs : s.IsAt d r parts) :
    d'.walk r parts = .ok s.place := by
  have hfolder := h.keeps.folders _ hs.kindAt_folder
  obtain ⟨hfault, hrun⟩ := walk_eq_ok.mp (h.keeps.walk hs.walk (by rw [hfolder]; rfl))
  have hthere : (d'.kindAt (s.folder ++ [s.name])).isSome := by
    rw [← Site.place, h.kindAt, if_pos rfl]
    rfl
  rw [← hs.parts_eq]
  exact walk_eq_ok.mpr ⟨hfault, foldlM_step_append.mpr ⟨_, hrun, foldlM_step_cons.mpr
    ⟨_, step_eq_ok.mpr ⟨hfolder, .down hs.isName hs.size hthere⟩, rfl⟩⟩⟩

theorem sets_put (hfolder : d.kindAt s.folder = some .folder) (hname : Route.IsPart s.name)
    (hfree : d.kindAt s.place ≠ some .folder) (k : Kind) :
    d.Sets (d.put s k.tree) s.place (some k) := by
  obtain ⟨es, hes⟩ := FileTree.exists_of_kindAt_folder hfolder
  have hchild (other : String) : FileTree.child? (FileTree.putChild es s.name k.tree) other =
      if other = s.name then (some k).map Kind.tree else FileTree.child? es other :=
    FileTree.child?_putChild es s.name other k.tree
  exact ⟨rfl, hfree,
    FileTree.kindAt_adjust_of_child (f := (FileTree.putChild · s.name k.tree)) hchild hes hfree,
    fun ht => ht.adjust (fun _ hes => hes.putChild hname k.isTidy_tree) s.folder⟩

theorem sets_drop (hfolder : d.kindAt s.folder = some .folder)
    (hfree : d.kindAt s.place ≠ some .folder) : d.Sets (d.drop s) s.place none := by
  obtain ⟨es, hes⟩ := FileTree.exists_of_kindAt_folder hfolder
  have hchild (other : String) : FileTree.child? (FileTree.dropChild es s.name) other =
      if other = s.name then (none : Option Kind).map Kind.tree else FileTree.child? es other :=
    FileTree.child?_dropChild es s.name other
  exact ⟨rfl, hfree,
    FileTree.kindAt_adjust_of_child (f := (FileTree.dropChild · s.name)) hchild hes hfree,
    fun ht => ht.adjust (fun _ hes => hes.dropChild s.name) s.folder⟩

end Clientele.Disk
