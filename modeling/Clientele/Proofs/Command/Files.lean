import Clientele.Command.Session
import Clientele.Proofs.Store.Snapshot

/-!
The files of a session: the snapshots in the folder of the documents, and the journal apart from
them. Making folders and writing the journal leaves the snapshots alone, and saving leaves the
journal alone.
-/
set_option autoImplicit false

namespace Clientele.Session

open FileTree (Way)
open Store (snapshotAt snapshotAt_eq_some snapshotName besideName)

variable {d d' : Disk} {folder route : Route} {way base : Way} {names : List String}
  {text text' : List Char}

/-- Folders that are made do not change where the folder of the documents is. -/
def IsReached (d : Disk) (folder : Route) : Prop := d.has folder ∨ ".." ∉ folder.parts

def IsApart (d : Disk) (folder : Route) (way : Way) : Prop :=
  ∀ base, d.locate folder = .ok base →
    way ≠ base ∧ ∀ c, way ≠ base ++ [snapshotName c] ∧ way ≠ base ++ [besideName c]

/-- A folder from which the documents of some collections can be read, and to which they can be
saved. -/
structure HasFolder (d : Disk) (folder : Route) (names : List String) : Prop where
  tidy : d.root.IsTidy
  reached : IsReached d folder
  notFile : ∀ text, d.find? folder ≠ some (.file text)
  known : ∀ c ≠ "", ∀ text, snapshotAt folder d c = some text → c ∈ names

structure HasJournal (d : Disk) (folder route : Route) (text : List Char) : Prop where
  above : ∀ r ∈ route.above.head?, d.isFolder r
  placed : ∃ way, d.locate route = .ok way ∧ d.kindAt way = some (.file (.ofList text)) ∧
    IsApart d folder way

theorem IsReached.keeps (h : IsReached d folder) (hkeeps : d.Keeps d')
    (hsome : ∀ way, (d.kindAt way).isSome → (d'.kindAt way).isSome) : IsReached d' folder := by
  refine h.imp_left fun hhas => ?_
  obtain ⟨base, hbase⟩ := Disk.has_iff.mp hhas
  exact Disk.has_iff.mpr
    ⟨base, hkeeps.walk hbase (hsome base (Disk.isSome_kindAt_of_locate hbase))⟩

theorem isSome_of_extends (h : d.Extends d') (hsome : (d.kindAt way).isSome) :
    (d'.kindAt way).isSome := by
  rwa [h.kindAt_of_isSome hsome]

theorem locate_of_extends (hr : IsReached d folder) (h : d.Extends d')
    (hbase : d'.locate folder = .ok base) (hsome : (d.kindAt base).isSome) :
    d.locate folder = .ok base := by
  rcases hr with hhas | hup
  · obtain ⟨base', hbase'⟩ := Disk.has_iff.mp hhas
    have hthere := isSome_of_extends h (Disk.isSome_kindAt_of_locate hbase')
    cases (h.toKeeps.walk hbase' hthere).symm.trans hbase
    exact hbase'
  · exact h.locate_eq hup hbase hsome

theorem kindAt_file_of_extends (h : d.Extends d') {text : String}
    (hfile : d'.kindAt way = some (.file text)) : d.kindAt way = some (.file text) := by
  rcases h.kindAt way with hsame | ⟨-, hfolder⟩
  · rwa [← hsame]
  · cases hfile.symm.trans hfolder

theorem snapshotAt_of_extends (hr : IsReached d folder) (h : d.Extends d') (c : String) :
    snapshotAt folder d' c = snapshotAt folder d c := by
  refine Option.ext fun text => ?_
  rw [snapshotAt_eq_some, snapshotAt_eq_some]
  constructor
  · rintro ⟨base, hbase, hfile⟩
    have hfile' := kindAt_file_of_extends h hfile
    have hsome : (d.kindAt base).isSome :=
      Disk.isSome_kindAt_of_prefix (List.prefix_append _ _) (by rw [hfile']; rfl)
    exact ⟨base, locate_of_extends hr h hbase hsome, hfile'⟩
  · rintro ⟨base, hbase, hfile⟩
    have hsome : (d.kindAt (base ++ [snapshotName c])).isSome := by
      rw [hfile]
      rfl
    refine ⟨base, h.toKeeps.walk hbase ?_, by rw [h.kindAt_of_isSome hsome, hfile]⟩
    exact isSome_of_extends h (Disk.isSome_kindAt_of_locate hbase)

theorem HasFolder.of_extends (hf : HasFolder d folder names) (h : d.Extends d') :
    HasFolder d' folder names where
  tidy := h.tidy hf.tidy
  reached := hf.reached.keeps h.toKeeps fun _ => isSome_of_extends h
  notFile text hfile := by
    obtain ⟨base, hbase, hkind⟩ := Disk.find?_eq_file.mp hfile
    have hkind' := kindAt_file_of_extends h hkind
    have hbase' := locate_of_extends hf.reached h hbase (by rw [hkind']; rfl)
    exact hf.notFile text (Disk.find?_eq_file.mpr ⟨base, hbase', hkind'⟩)
  known c hne text htext := by
    rw [snapshotAt_of_extends hf.reached h] at htext
    exact hf.known c hne text htext

theorem IsApart.of_extends (ha : IsApart d folder way) (hr : IsReached d folder) (h : d.Extends d')
    (hway : (d.kindAt way).isSome) : IsApart d' folder way := by
  intro base hbase
  by_cases hsome : (d.kindAt base).isSome
  · exact ha base (locate_of_extends hr h hbase hsome)
  · -- What is there already is not below a folder that is new.
    have hnot : ¬base <+: way := fun hprefix => hsome (Disk.isSome_kindAt_of_prefix hprefix hway)
    refine ⟨?_, fun c => ⟨?_, ?_⟩⟩
    all_goals
      rintro rfl
      exact hnot (by simp)

theorem HasJournal.of_extends (hj : HasJournal d folder route text) (hr : IsReached d folder)
    (h : d.Extends d') : HasJournal d' folder route text := by
  obtain ⟨above, way, hway, hkind, hapart⟩ := hj
  have hsome : (d.kindAt way).isSome := by
    rw [hkind]
    rfl
  refine ⟨fun r hrabove => h.toKeeps.isFolder (above r hrabove), way, ?_, ?_, ?_⟩
  · exact h.toKeeps.walk hway (isSome_of_extends h hsome)
  · rw [h.kindAt_of_isSome hsome, hkind]
  · exact hapart.of_extends hr h hsome

section

variable {content : String} (h : d.Sets d' way (some (.file content)))
include h

theorem isSome_of_sets {other : Way} (hsome : (d.kindAt other).isSome) :
    (d'.kindAt other).isSome := by
  rw [h.kindAt]
  split
  · rfl
  · exact hsome

theorem keeps_of_sets (ht : d.root.IsTidy) : d'.Keeps d where
  here := h.here.symm
  folders other hother := by
    rw [h.kindAt] at hother
    split at hother
    · cases hother
    · exact hother
  tidy _ := ht

theorem locate_of_sets (ht : d.root.IsTidy) (hbase : d'.locate folder = .ok base)
    (hne : way ≠ base) : d.locate folder = .ok base := by
  refine (keeps_of_sets h ht).walk hbase ?_
  have hsome := Disk.isSome_kindAt_of_locate hbase
  rwa [h.kindAt, if_neg (Ne.symm hne)] at hsome

theorem snapshotAt_of_sets (ht : d.root.IsTidy) (ha : IsApart d' folder way) (c : String) :
    snapshotAt folder d' c = snapshotAt folder d c := by
  refine Option.ext fun text => ?_
  rw [snapshotAt_eq_some, snapshotAt_eq_some]
  have hkind {base : Way} (hbase : d'.locate folder = .ok base) :
      d'.kindAt (base ++ [snapshotName c]) = d.kindAt (base ++ [snapshotName c]) := by
    rw [h.kindAt, if_neg (Ne.symm ((ha base hbase).2 c).1)]
  constructor
  · rintro ⟨base, hbase, hfile⟩
    exact ⟨base, locate_of_sets h ht hbase (ha base hbase).1, by rwa [← hkind hbase]⟩
  · rintro ⟨base, hbase, hfile⟩
    have hbase' := h.keeps.walk hbase (isSome_of_sets h (Disk.isSome_kindAt_of_locate hbase))
    exact ⟨base, hbase', by rwa [hkind hbase']⟩

theorem HasFolder.of_sets (hf : HasFolder d folder names) (ha : IsApart d' folder way) :
    HasFolder d' folder names where
  tidy := h.tidy hf.tidy
  reached := hf.reached.keeps h.keeps fun _ => isSome_of_sets h
  notFile text hfile := by
    obtain ⟨base, hbase, hkind⟩ := Disk.find?_eq_file.mp hfile
    have hne := (ha base hbase).1
    rw [h.kindAt, if_neg (Ne.symm hne)] at hkind
    exact hf.notFile text
      (Disk.find?_eq_file.mpr ⟨base, locate_of_sets h hf.tidy hbase hne, hkind⟩)
  known c hne text htext := by
    rw [snapshotAt_of_sets h hf.tidy ha] at htext
    exact hf.known c hne text htext

theorem IsApart.of_sets (ht : d.root.IsTidy) (hfile : (d.kindAt way).isSome)
    (ha : IsApart d folder way) : IsApart d' folder way := by
  intro base hbase
  refine ha base ((keeps_of_sets h ht).walk hbase ?_)
  have hsome := Disk.isSome_kindAt_of_locate hbase
  rw [h.kindAt] at hsome
  split at hsome
  · rename_i heq
    rwa [heq]
  · exact hsome

end

theorem HasJournal.write (hj : HasJournal d folder route text) (hf : HasFolder d folder names)
    (h : d.write route (.ofList text') = .ok d') :
    HasJournal d' folder route text' ∧ HasFolder d' folder names := by
  obtain ⟨above, way, hway, hkind, hapart⟩ := hj
  obtain ⟨s, hat, hsets⟩ := Disk.write_eq_ok h
  obtain ⟨rfl, hsome⟩ := hat.place_eq hway
  have hapart' := IsApart.of_sets hsets hf.tidy hsome hapart
  refine ⟨⟨fun r hr => hsets.keeps.isFolder (above r hr), s.place, ?_, ?_, hapart'⟩,
    hf.of_sets hsets hapart'⟩
  · exact hsets.keeps.walk hway (isSome_of_sets hsets hsome)
  · rw [hsets.kindAt, if_pos rfl]

theorem HasJournal.journalText_eq (h : HasJournal d folder route text) :
    journalText route d = (.ok (.ofList text), d) := by
  obtain ⟨above, way, hway, hkind, -⟩ := h
  have hread : d.read route = .ok (.ofList text) := Disk.read_eq_ok.mpr ⟨way, hway, hkind⟩
  rw [journalText, Disk.makeFolders_of_isFolder above]
  simp only [Disk.has_iff.mpr ⟨way, hway⟩, if_true, hread]

theorem journalText_eq_ok {content : String} (h : journalText route d = (.ok content, d'))
    (ha : ∀ way, d'.locate route = .ok way → IsApart d' folder way) :
    HasJournal d' folder route content.toList ∧
      (IsReached d folder → d.root.IsTidy →
        ∀ c, snapshotAt folder d' c = snapshotAt folder d c) ∧
      (HasFolder d folder names → HasFolder d' folder names) := by
  unfold journalText at h
  split at h
  · cases h
  rename_i d₁ hfolders
  obtain ⟨hextends, above⟩ := Disk.makeFolders_eq_ok hfolders
  split at h
  · obtain ⟨hread, rfl⟩ := Prod.mk.inj h
    obtain ⟨way, hway, hkind⟩ := Disk.read_eq_ok.mp hread
    refine ⟨⟨above, way, hway, by rwa [String.ofList_toList], ha way hway⟩,
      fun hr _ => snapshotAt_of_extends hr hextends, fun hf => hf.of_extends hextends⟩
  · split at h
    · cases h
    rename_i d₂ hwrite
    cases h
    obtain ⟨s, hat, hsets⟩ := Disk.write_eq_ok hwrite
    have hkind : d'.kindAt s.place = some (.file "") := by rw [hsets.kindAt, if_pos rfl]
    have hway := hsets.walk_place hat
    have hapart := ha _ hway
    refine ⟨⟨fun r hr => hsets.keeps.isFolder (above r hr), s.place, hway, hkind, hapart⟩,
      fun hr ht c => ?_, fun hf => (hf.of_extends hextends).of_sets hsets hapart⟩
    rw [snapshotAt_of_sets hsets (hextends.tidy ht) hapart, snapshotAt_of_extends hr hextends]

/-- A folder to which a store was saved has the snapshots of its collections and no others, and the
journal is as it was. -/
theorem HasFolder.save {s : Store} (hf : HasFolder d folder s.collectionNames)
    (husable : ∀ c ∈ s.collectionNames, Store.IsUsable c) (h : s.save folder d = (.ok (), d')) :
    HasFolder d' folder s.collectionNames ∧
      (∀ c ≠ "", snapshotAt folder d' c =
        if c ∈ s.collectionNames then some (Store.snapshotText (s.collection c)) else none) ∧
      ∀ route text, HasJournal d folder route text → HasJournal d' folder route text := by
  unfold Store.save at h
  split at h
  · cases h
  rename_i d₁ hfolders
  obtain ⟨hextends, hfolder⟩ := Disk.makeFolders_eq_ok hfolders
  obtain ⟨base, hbase, hkind⟩ := Disk.isFolder_iff.mp (hfolder folder rfl)
  have hnames (c : String) : c ∈ Store.sortedNames (s.collections.map (·.1)) ↔
      c ∈ s.collectionNames := List.mem_mergeSort
  obtain ⟨hkeeps, hwritten, hothers⟩ :=
    Store.saveAll_eq_ok h (fun c hc => husable c ((hnames c).mp hc)) hbase hkind
  have hf₁ := hf.of_extends hextends
  have hkind' := hkeeps.folders base hkind
  have hbase' : d'.locate folder = .ok base := hkeeps.walk hbase (by rw [hkind']; rfl)
  have hsnapshots (c : String) (hne : c ≠ "") : snapshotAt folder d' c =
      if c ∈ s.collectionNames then some (Store.snapshotText (s.collection c)) else none := by
    split
    · rename_i hc
      exact snapshotAt_eq_some.mpr ⟨base, hbase', hwritten c ((hnames c).mpr hc)⟩
    · rename_i hc
      by_contra hsome
      obtain ⟨text, htext⟩ := Option.ne_none_iff_exists'.mp hsome
      obtain ⟨b, hb, hfile⟩ := snapshotAt_eq_some.mp htext
      cases hb.symm.trans hbase'
      rw [hothers] at hfile
      · exact hc (hf₁.known c hne text (snapshotAt_eq_some.mpr ⟨base, hbase, hfile⟩))
      · intro c' hc'
        simp only [ne_eq, List.append_cancel_left_eq, List.cons.injEq, and_true]
        exact ⟨fun heq => hc (Store.snapshotName_inj heq ▸ (hnames c').mp hc'),
          Store.snapshotName_ne_besideName c c'⟩
  refine ⟨⟨hkeeps.tidy hf₁.tidy, .inl (Disk.has_iff.mpr ⟨base, hbase'⟩), ?_, ?_⟩, hsnapshots, ?_⟩
  · intro text hfile
    obtain ⟨b, hb, hbfile⟩ := Disk.find?_eq_file.mp hfile
    cases hb.symm.trans hbase'
    cases hbfile.symm.trans hkind'
  · intro c hne text htext
    rw [hsnapshots c hne] at htext
    split at htext
    · assumption
    · cases htext
  · intro route text hj
    obtain ⟨above, way, hway, hfile, hapart⟩ := hj.of_extends hf.reached hextends
    have hsame : d'.kindAt way = d₁.kindAt way := hothers way fun c _ => (hapart base hbase).2 c
    refine ⟨fun r hr => hkeeps.isFolder (above r hr), way, ?_, hsame.trans hfile, ?_⟩
    · exact hkeeps.walk hway (by rw [hsame, hfile]; rfl)
    · intro b hb
      cases hb.symm.trans hbase'
      exact hapart base hbase

end Clientele.Session
