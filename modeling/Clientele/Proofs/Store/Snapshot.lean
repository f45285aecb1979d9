import Mathlib.Data.List.Pairwise
import Clientele.Proofs.Files.Operation
import Clientele.Proofs.StableSort
import Clientele.Proofs.Store.Alike

/-!
A store is read from a folder as it was saved there. What a folder is read as depends on the
snapshots in it alone, and saving replaces those of all collections.
-/
set_option autoImplicit false

namespace Clientele.Store

open FileTree (Way)

theorem collectionOf?_eq_some {fileName collection : String} :
    collectionOf? fileName = some collection ↔
      fileName = snapshotName collection ∧ collection ≠ "" := by
  have hname : fileName = snapshotName collection ↔
      fileName.toList = collection.toList ++ snapshotEnding := by
    rw [snapshotName, ← String.toList_inj, String.toList_append, String.toList_ofList]
  have hnonempty : collection ≠ "" ↔ 0 < collection.toList.length := by
    rw [List.length_pos_iff, ne_eq, ne_eq, String.toList_eq_nil_iff]
  rw [hname, hnonempty]
  simp only [collectionOf?]
  constructor
  · intro h
    split at h
    · rename_i hsuffix
      obtain ⟨hsuffix, hlength⟩ := Bool.and_eq_true_iff.mp hsuffix
      obtain ⟨cs, hcs⟩ := List.isSuffixOf_iff_suffix.mp hsuffix
      have hlt := of_decide_eq_true hlength
      rw [← hcs, List.length_append] at h hlt
      rw [Nat.add_sub_cancel, List.take_left] at h
      cases h
      rw [String.toList_ofList]
      exact ⟨hcs.symm, by omega⟩
    · cases h
  · rintro ⟨hlist, hlength⟩
    have hsuffix : snapshotEnding.isSuffixOf fileName.toList = true :=
      List.isSuffixOf_iff_suffix.mpr ⟨_, hlist.symm⟩
    rw [if_pos, hlist, List.length_append, Nat.add_sub_cancel, List.take_left, String.ofList_toList]
    rw [Bool.and_eq_true_iff, decide_eq_true_eq, hlist, List.length_append]
    exact ⟨hlist ▸ hsuffix, by omega⟩

theorem snapshotName_inj {a b : String} (h : snapshotName a = snapshotName b) : a = b := by
  rw [snapshotName, snapshotName, ← String.toList_inj, String.toList_append, String.toList_append]
    at h
  exact String.toList_inj.mp (List.append_cancel_right h)

theorem IsUsable.isPart_snapshotName {name : String} (h : IsUsable name) :
    Route.IsPart (snapshotName name) := by
  rw [Route.IsPart, snapshotName, String.toList_append, String.toList_ofList, List.mem_append,
    not_or]
  exact ⟨h.part, by decide⟩

def besideName (collection : String) : String := snapshotName collection ++ ".tmp"

theorem IsUsable.isPart_besideName {name : String} (h : IsUsable name) :
    Route.IsPart (besideName name) := by
  rw [Route.IsPart, besideName, String.toList_append, List.mem_append, not_or]
  exact ⟨h.isPart_snapshotName, by decide⟩

theorem snapshotName_ne_besideName (a b : String) : snapshotName a ≠ besideName b := by
  have hsnapshot : (snapshotName a).toList.getLast? = some 'n' := by
    rw [snapshotName, String.toList_append, String.toList_ofList, List.getLast?_append]
    rfl
  have hbeside : (besideName b).toList.getLast? = some 'p' := by
    rw [besideName, String.toList_append, List.getLast?_append]
    rfl
  intro h
  rw [h, hbeside] at hsnapshot
  exact absurd hsnapshot (by decide)

def snapshotAt (folder : Route) (disk : Disk) (collection : String) : Option String :=
  match disk.locate folder with
  | .error _ => none
  | .ok way =>
    match disk.kindAt (way ++ [snapshotName collection]) with
    | some (.file text) => some text
    | _ => none

theorem snapshotAt_eq_some {folder : Route} {disk : Disk} {collection text : String} :
    snapshotAt folder disk collection = some text ↔
      ∃ way, disk.locate folder = .ok way ∧
        disk.kindAt (way ++ [snapshotName collection]) = some (.file text) := by
  unfold snapshotAt
  cases disk.locate folder with
  | error e => simp
  | ok way =>
    simp only [Except.ok.injEq, exists_eq_left']
    split
    · rename_i h
      simp [h]
    · rename_i h
      simpa using h text

/-- The snapshots that are read from a folder, in their order. -/
structure AreSnapshots (folder : Route) (disk : Disk) (L : List Snapshot) : Prop where
  sorted : L.Pairwise fun a b => a.fileName ≤ b.fileName
  distinct : (L.map (·.collection)).Nodup
  mem_iff : ∀ q, q ∈ L ↔ q.fileName = snapshotName q.collection ∧ q.collection ≠ "" ∧
    snapshotAt folder disk q.collection = some q.text

theorem AreSnapshots.unique {folder : Route} {disk disk' : Disk} {L L' : List Snapshot}
    (h : AreSnapshots folder disk L) (h' : AreSnapshots folder disk' L')
    (hsame : ∀ c ≠ "", snapshotAt folder disk' c = snapshotAt folder disk c) : L' = L := by
  have hmem (q : Snapshot) : q ∈ L' ↔ q ∈ L := by
    rw [h.mem_iff, h'.mem_iff]
    refine and_congr_right fun _ => and_congr_right fun hne => ?_
    rw [hsame _ hne]
  have hperm : L'.Perm L := (List.perm_ext_iff_of_nodup h'.distinct.of_map h.distinct.of_map).mpr hmem
  refine hperm.eq_of_pairwise (fun a b ha hb hab hba => ?_) h'.sorted h.sorted
  -- Files of one name are of one collection, of which there is one snapshot.
  obtain ⟨hafile, -, -⟩ := (h'.mem_iff a).mp ha
  obtain ⟨hbfile, -, -⟩ := (h.mem_iff b).mp hb
  have hfile : a.fileName = b.fileName := String.le_antisymm hab hba
  exact List.inj_on_of_nodup_map h.distinct ((hmem a).mp ha) hb
    (snapshotName_inj (hafile.symm.trans (hfile.trans hbfile)))

theorem mem_snapshotsAmong {files : List (String × String)} {q : Snapshot} :
    q ∈ snapshotsAmong files ↔ (q.fileName, q.text) ∈ files ∧
      q.fileName = snapshotName q.collection ∧ q.collection ≠ "" := by
  rw [snapshotsAmong, List.mem_mergeSort, List.mem_filterMap, ← collectionOf?_eq_some]
  constructor
  · rintro ⟨⟨name, text⟩, hmem, hq⟩
    obtain ⟨c, hc, rfl⟩ := Option.map_eq_some_iff.mp hq
    exact ⟨hmem, hc⟩
  · rintro ⟨hmem, hc⟩
    exact ⟨_, hmem, Option.map_eq_some_iff.mpr ⟨_, hc, rfl⟩⟩

theorem areSnapshots_snapshotsAmong {folder : Route} {disk : Disk} {way : Way}
    {es : FileTree.Entries} (ht : disk.root.IsTidy) (hway : disk.locate folder = .ok way)
    (hes : disk.root.find? way = some (.folder es)) :
    AreSnapshots folder disk (snapshotsAmong (FileTree.folder es).filesOf) where
  sorted := pairwise_mergeSort_le _ _
  distinct := by
    refine ((List.mergeSort_perm _ _).map _).nodup_iff.mpr ?_
    have hcollections : (((FileTree.folder es).filesOf.filterMap fun f =>
        (collectionOf? f.1).map fun c => (⟨f.1, c, f.2⟩ : Snapshot)).map (·.collection)) =
          ((FileTree.folder es).filesOf.map (·.1)).filterMap collectionOf? := by
      rw [List.map_filterMap, List.filterMap_map]
      exact List.filterMap_congr fun f _ => by simp [Function.comp_def]
    rw [hcollections]
    refine (ht.of_find? hes).nodup_filesOf.filterMap fun a b c ha hb => ?_
    rw [(collectionOf?_eq_some.mp ha).1, (collectionOf?_eq_some.mp hb).1]
  mem_iff q := by
    have hfile (name text : String) : (name, text) ∈ (FileTree.folder es).filesOf ↔
        disk.kindAt (way ++ [name]) = some (.file text) := by
      rw [(ht.of_find? hes).mem_filesOf, Disk.kindAt, FileTree.kindAt_append_of_find? hes]
    rw [mem_snapshotsAmong, hfile, snapshotAt_eq_some, and_comm, and_assoc]
    refine and_congr_right fun hname => and_congr_right fun _ => ?_
    simp [hway, hname]

theorem find?_of_snapshotAt {folder : Route} {disk : Disk} {collection text : String}
    (h : snapshotAt folder disk collection = some text) :
    ∃ es, disk.find? folder = some (.folder es) := by
  obtain ⟨way, hway, hkind⟩ := snapshotAt_eq_some.mp h
  have hfolder : disk.kindAt way = some .folder := by
    by_contra hfolder
    have hnone : disk.kindAt (way ++ [snapshotName collection]) = none :=
      FileTree.kindAt_append_of_ne hfolder (by simp)
    cases hkind.symm.trans hnone
  obtain ⟨es, hes⟩ := FileTree.exists_of_kindAt_folder hfolder
  exact ⟨es, Disk.find?_eq_some.mpr ⟨way, hway, hes⟩⟩

theorem exists_areSnapshots {folder : Route} {disk : Disk} (ht : disk.root.IsTidy)
    (hfile : ∀ text, disk.find? folder ≠ some (.file text)) :
    ∃ L, AreSnapshots folder disk L ∧
      (load folder disk).map (·.store) = loadSnapshots folder empty L := by
  cases hfind : disk.find? folder with
  | none =>
    refine ⟨[], ⟨.nil, .nil, fun q => ⟨nofun, fun ⟨_, _, hq⟩ => ?_⟩⟩, ?_⟩
    · obtain ⟨es, hes⟩ := find?_of_snapshotAt hq
      cases hfind.symm.trans hes
    · rw [load, hfind]
      rfl
  | some t =>
    cases t with
    | file text => exact absurd hfind (hfile text)
    | folder es =>
      obtain ⟨way, hway, hes⟩ := Disk.find?_eq_some.mp hfind
      refine ⟨_, areSnapshots_snapshotsAmong ht hway hes, ?_⟩
      simp only [load, hfind]
      cases loadSnapshots folder empty (snapshotsAmong (FileTree.folder es).filesOf) <;> rfl

theorem load_congr {folder : Route} {disk disk' : Disk} (ht : disk.root.IsTidy)
    (ht' : disk'.root.IsTidy) (hfile : ∀ text, disk.find? folder ≠ some (.file text))
    (hfile' : ∀ text, disk'.find? folder ≠ some (.file text))
    (hsame : ∀ c ≠ "", snapshotAt folder disk' c = snapshotAt folder disk c) :
    (load folder disk').map (·.store) = (load folder disk).map (·.store) := by
  obtain ⟨L, hL, hload⟩ := exists_areSnapshots ht hfile
  obtain ⟨L', hL', hload'⟩ := exists_areSnapshots ht' hfile'
  rw [hload, hload', hL.unique hL' hsame]

theorem isUsable_of_snapshotAt {folder : Route} {disk : Disk} {collection text : String}
    (ht : disk.root.IsTidy) (hne : collection ≠ "")
    (h : snapshotAt folder disk collection = some text) : IsUsable collection := by
  obtain ⟨way, -, hkind⟩ := snapshotAt_eq_some.mp h
  have hpart : Route.IsPart (snapshotName collection) := ht.isPart (Option.isSome_of_eq_some hkind)
  rw [Route.IsPart, snapshotName, String.toList_append, List.mem_append, not_or] at hpart
  exact ⟨hne, hpart.1⟩

theorem parse?_of_items? {text : String} {docs : List Json}
    (h : (Json.parse? text).bind Json.items? = some docs) : Json.parse? text = some (.arr docs) := by
  obtain ⟨v, hv, hitems⟩ := Option.bind_eq_some_iff.mp h
  cases v with
  | arr items =>
    cases hitems
    exact hv
  | _ => cases hitems

section

variable {files : List String} {s t : Store} {name : String}

theorem Alike.insertAll {docs : List Json} (h : Alike files s s) (hname : IsUsable name)
    (hdocs : ∀ doc : Fields, .obj doc ∈ docs → doc.IsStorable)
    (hall : s.insertAll name docs = .ok t) : Alike files t t := by
  induction docs generalizing s with
  | nil =>
    cases hall
    exact h
  | cons doc docs ih =>
    rw [Store.insertAll] at hall
    split at hall
    · rename_i s₁ hinsert
      obtain ⟨fields, rfl⟩ : ∃ fields, doc = .obj fields := by
        unfold Store.insert at hinsert
        split at hinsert
        · rename_i hc
          obtain ⟨fields, -, hfields, -⟩ := Collection.insert_eq_ok hc
          exact ⟨fields, hfields⟩
        · cases hinsert
      obtain ⟨answer, t₁, t₁', hone, hone', halike⟩ :=
        h.insert hname (hdocs fields List.mem_cons_self)
      cases hone.symm.trans hinsert
      cases hone'.symm.trans hinsert
      exact ih halike (fun doc hdoc => hdocs doc (List.mem_cons_of_mem _ hdoc)) hall
    · cases hall

theorem Alike.loadSnapshots {L : List Snapshot} (h : Alike files s s) (folder : Route)
    (hnames : ∀ q ∈ L, IsUsable q.collection) (hload : Store.loadSnapshots folder s L = .ok t) :
    ∃ files', (∀ name ∈ files, name ∈ files') ∧ (∀ q ∈ L, q.collection ∈ files') ∧
      Alike files' t t := by
  induction L generalizing files s with
  | nil =>
    cases hload
    exact ⟨files, fun _ h => h, by simp, h⟩
  | cons q L ih =>
    rw [List.forall_mem_cons] at hnames
    obtain ⟨s₁, hone, hrest⟩ := Except.bind_eq_ok_iff.mp hload
    unfold loadSnapshot at hone
    split at hone
    · cases hone
    rename_i docs hdocs
    have hv := parse?_of_items? hdocs
    have hput := h.put (h.collections q.collection) hnames.1 (h.storable q.collection)
    have hthere : q.collection ∈ (s.put q.collection (s.collection q.collection)).collectionNames := by
      rw [collectionNames_put]
      split
      · assumption
      · simp
    have hput' : Alike (q.collection :: files) _ _ :=
      { hput with known := List.forall_mem_cons.mpr ⟨hthere, hput.known⟩ }
    obtain ⟨s₁', hall, rfl⟩ : ∃ s₁', (s.put q.collection (s.collection q.collection)).insertAll
        q.collection docs = .ok s₁' ∧ s₁' = s₁ := by
      generalize Store.insertAll _ _ _ = r at hone ⊢
      cases r with
      | error e => cases hone
      | ok s₁' => cases hone; exact ⟨_, rfl, rfl⟩
    obtain ⟨files', hfiles, hL, halike⟩ := ih
      (hput'.insertAll hnames.1 (fun doc hdoc => Json.isStorable_of_parse? hv hdoc) hall) hnames.2 hrest
    rw [List.forall_mem_cons] at hfiles
    exact ⟨files', hfiles.2, List.forall_mem_cons.mpr ⟨hfiles.1, hL⟩, halike⟩

theorem alike_of_load {folder : Route} {disk : Disk} {l : Loaded} (ht : disk.root.IsTidy)
    (h : load folder disk = .ok l) :
    Alike l.store.collectionNames l.store l.store ∧
      ∀ c ≠ "", ∀ text, snapshotAt folder disk c = some text → c ∈ l.store.collectionNames := by
  have hfile : ∀ text, disk.find? folder ≠ some (.file text) := by
    intro text hfile
    rw [load, hfile] at h
    cases h
  obtain ⟨L, hL, hload⟩ := exists_areSnapshots ht hfile
  rw [h] at hload
  have hempty : Alike [] empty empty :=
    ⟨fun name => ⟨wellIndexed_empty name, wellIndexed_empty name, rfl⟩, .refl _, .nil, nofun, nofun,
      nofun⟩
  have husable : ∀ q ∈ L, IsUsable q.collection := by
    intro q hq
    obtain ⟨-, hne, htext⟩ := (hL.mem_iff q).mp hq
    exact isUsable_of_snapshotAt ht hne htext
  obtain ⟨files, -, hfiles, halike⟩ := hempty.loadSnapshots folder husable hload.symm
  refine ⟨{ halike with known := fun _ h => h }, fun c hne text htext => ?_⟩
  exact halike.known _ (hfiles ⟨snapshotName c, c, text⟩ ((hL.mem_iff _).mpr ⟨rfl, hne, htext⟩))

end

theorem loadSnapshots_eq_error {s : Store} {L : List Snapshot} {q : Snapshot} (folder : Route)
    (hq : q ∈ L) (htext : Json.parse? q.text = none) : ∃ e, loadSnapshots folder s L = .error e := by
  induction L generalizing s with
  | nil => cases hq
  | cons q' L ih =>
    rw [loadSnapshots]
    cases hone : loadSnapshot folder s q' with
    | error e => exact ⟨e, rfl⟩
    | ok t =>
      rcases List.mem_cons.mp hq with rfl | hq
      · rw [loadSnapshot, htext] at hone
        cases hone
      · exact ih hq

theorem load_eq_error {folder : Route} {disk : Disk} {collection text : String}
    (ht : disk.root.IsTidy) (hfile : ∀ text, disk.find? folder ≠ some (.file text))
    (hne : collection ≠ "") (hsnapshot : snapshotAt folder disk collection = some text)
    (htext : Json.parse? text = none) : ∃ e, load folder disk = .error e := by
  obtain ⟨L, hL, hload⟩ := exists_areSnapshots ht hfile
  have hq : (⟨snapshotName collection, collection, text⟩ : Snapshot) ∈ L :=
    (hL.mem_iff _).mpr ⟨rfl, hne, hsnapshot⟩
  obtain ⟨e, he⟩ := loadSnapshots_eq_error (s := empty) folder hq htext
  exact ⟨e, Except.map_eq_error_iff.mp (hload.trans he)⟩

variable {s t : Store}

theorem insertAll_eq_ok {name : String} {docs : List Fields} (ht : t.WellIndexed)
    (hname : name ∈ t.collectionNames) (hkeyed : ∀ doc ∈ docs, (documentId? doc).isSome)
    (hnodup : (((t.collection name).documents ++ docs).map documentId?).Nodup) :
    ∃ t', t.insertAll name (docs.map .obj) = .ok t' ∧ t'.WellIndexed ∧
      t'.collectionNames = t.collectionNames ∧
      ∀ other, (t'.collection other).documents =
        if name = other then (t.collection name).documents ++ docs
        else (t.collection other).documents := by
  induction docs generalizing t with
  | nil =>
    refine ⟨t, rfl, ht, rfl, fun other => ?_⟩
    split
    · rename_i heq
      rw [List.append_nil, heq]
    · rfl
  | cons doc docs ih =>
    rw [List.forall_mem_cons] at hkeyed
    obtain ⟨id, hid⟩ := Option.isSome_iff_exists.mp hkeyed.1
    have hunknown : (t.collection name).knows id = false := by
      by_contra hknown
      rw [Bool.not_eq_false, Collection.knows, Std.TreeMap.contains_eq_isSome_getElem?] at hknown
      obtain ⟨i, hi⟩ := Option.isSome_iff_exists.mp hknown
      obtain ⟨old, hold, hoid⟩ := (ht name).exists_getElem? hi
      rw [List.map_append, List.nodup_append] at hnodup
      exact hnodup.2.2 _ (List.mem_map_of_mem (List.mem_of_getElem? hold)) _
        (List.mem_map_of_mem List.mem_cons_self) (hoid.trans hid.symm)
    have hinsert := Collection.insert_obj hid hunknown name
    have hstep : t.insert name (.obj doc) = (.ok (), t.put name ⟨(t.collection name).documents ++ [doc],
        (t.collection name).positions.insert id (t.collection name).documents.length⟩) := by
      rw [Store.insert, hinsert]
    have hindexed := ht.insert name (.obj doc)
    rw [hstep] at hindexed
    have hnames := collectionNames_put t name ⟨(t.collection name).documents ++ [doc],
      (t.collection name).positions.insert id (t.collection name).documents.length⟩
    rw [if_pos hname] at hnames
    have hdocuments := collection_put t name ⟨(t.collection name).documents ++ [doc],
      (t.collection name).positions.insert id (t.collection name).documents.length⟩
    obtain ⟨t', hall, hindexed', hnames', hdocuments'⟩ := ih hindexed (hnames ▸ hname) hkeyed.2 (by
      rw [hdocuments, if_pos rfl, List.append_assoc]
      exact hnodup)
    refine ⟨t', ?_, hindexed', hnames'.trans hnames, fun other => ?_⟩
    · rw [List.map_cons, insertAll, hstep]
      exact hall
    · rw [hdocuments', hdocuments, hdocuments, if_pos rfl]
      split
      · rw [List.append_assoc, List.singleton_append]
      · rfl

theorem loadSnapshot_eq_ok {q : Snapshot} {docs : List Fields} (folder : Route)
    (ht : t.WellIndexed) (hnew : q.collection ∉ t.collectionNames)
    (htext : Json.parse? q.text = some (.arr (docs.map .obj)))
    (hkeyed : ∀ doc ∈ docs, (documentId? doc).isSome) (hnodup : (docs.map documentId?).Nodup) :
    ∃ t₁, loadSnapshot folder t q = .ok t₁ ∧ t₁.WellIndexed ∧
      t₁.collectionNames = t.collectionNames ++ [q.collection] ∧
      ∀ other, (t₁.collection other).documents =
        if q.collection = other then docs else (t.collection other).documents := by
  have hnames := collectionNames_put t q.collection (t.collection q.collection)
  rw [if_neg hnew] at hnames
  have hput := collection_put t q.collection (t.collection q.collection)
  have hdocuments : ((t.put q.collection (t.collection q.collection)).collection
      q.collection).documents = [] := by
    rw [hput, if_pos rfl, collection_of_not_mem hnew]
    rfl
  have hthere : q.collection ∈
      (t.put q.collection (t.collection q.collection)).collectionNames := by
    rw [hnames]
    simp
  obtain ⟨t₁, hall, ht₁, hnames₁, hdocuments₁⟩ := insertAll_eq_ok
    (ht.put (ht q.collection) q.collection) hthere hkeyed (by rw [hdocuments]; exact hnodup)
  refine ⟨t₁, ?_, ht₁, hnames₁.trans hnames, fun other => ?_⟩
  · simp only [loadSnapshot, htext, Option.bind_some, Json.items?, hall]
    rfl
  · rw [hdocuments₁, hdocuments, List.nil_append, hput]
    split
    · rfl
    · rfl

theorem loadSnapshots_eq_ok {L : List Snapshot} (folder : Route) (hs : s.WellIndexed)
    (ht : t.WellIndexed) (hdistinct : (L.map (·.collection)).Nodup)
    (hnew : ∀ q ∈ L, q.collection ∉ t.collectionNames)
    (htexts : ∀ q ∈ L, Json.parse? q.text = some (.arr (s.collection q.collection).rows)) :
    ∃ t', loadSnapshots folder t L = .ok t' ∧ t'.WellIndexed ∧
      t'.collectionNames = t.collectionNames ++ L.map (·.collection) ∧
      ∀ other, (t'.collection other).documents =
        if other ∈ L.map (·.collection) then (s.collection other).documents
        else (t.collection other).documents := by
  induction L generalizing t with
  | nil => exact ⟨t, rfl, ht, (List.append_nil _).symm, fun other => by simp⟩
  | cons q L ih =>
    rw [List.forall_mem_cons] at hnew htexts
    rw [List.map_cons, List.nodup_cons] at hdistinct
    obtain ⟨t₁, hone, ht₁, hnames₁, hdocuments₁⟩ := loadSnapshot_eq_ok folder ht hnew.1 htexts.1
      (hs q.collection).keyed (hs q.collection).nodup
    obtain ⟨t', hload, ht', hnames', hdocuments'⟩ := ih ht₁ hdistinct.2
      (fun q' hq' hmem => by
        rw [hnames₁, List.mem_append, List.mem_singleton] at hmem
        rcases hmem with hmem | heq
        · exact hnew.2 q' hq' hmem
        · exact hdistinct.1 (heq ▸ List.mem_map_of_mem hq')) htexts.2
    refine ⟨t', ?_, ht', ?_, fun other => ?_⟩
    · rw [loadSnapshots, hone]
      exact hload
    · rw [hnames', hnames₁, List.map_cons, List.append_assoc, List.singleton_append]
    · rw [hdocuments', hdocuments₁]
      by_cases ho : other = q.collection
      · subst ho
        simp [hdistinct.1]
      · simp [ho, Ne.symm ho]

/-- The snapshots of all collections of a store are read as a store that is like it. -/
theorem load_of_snapshotAt {files : List String} {folder : Route} {disk : Disk}
    (hs : Alike files s s) (ht : disk.root.IsTidy)
    (hfile : ∀ text, disk.find? folder ≠ some (.file text))
    (hsnapshots : ∀ c ≠ "", snapshotAt folder disk c =
      if c ∈ s.collectionNames then some (snapshotText (s.collection c)) else none)
    (htexts : ∀ c ∈ s.collectionNames,
      Json.parse? (snapshotText (s.collection c)) = some (.arr (s.collection c).rows)) :
    ∃ l, load folder disk = .ok l ∧ Alike files s l.store := by
  obtain ⟨L, hL, hload⟩ := exists_areSnapshots ht hfile
  have hmem {q : Snapshot} (hq : q ∈ L) :
      q.collection ∈ s.collectionNames ∧ q.text = snapshotText (s.collection q.collection) := by
    obtain ⟨-, hne, htext⟩ := (hL.mem_iff q).mp hq
    rw [hsnapshots _ hne] at htext
    split at htext
    · rename_i hc
      exact ⟨hc, (Option.some.inj htext).symm⟩
    · cases htext
  have hnames : (L.map (·.collection)).Perm s.collectionNames := by
    refine (List.perm_ext_iff_of_nodup hL.distinct hs.distinct).mpr fun c => ⟨fun hc => ?_, fun hc => ?_⟩
    · obtain ⟨q, hq, rfl⟩ := List.mem_map.mp hc
      exact (hmem hq).1
    · have hne := (hs.usable c hc).nonempty
      refine List.mem_map.mpr ⟨⟨snapshotName c, c, snapshotText (s.collection c)⟩,
        (hL.mem_iff _).mpr ⟨rfl, hne, ?_⟩, rfl⟩
      rw [hsnapshots c hne, if_pos hc]
  have hindexed : s.WellIndexed := fun name => (hs.collections name).indexed
  obtain ⟨t, ht, htindexed, htnames, htdocuments⟩ := loadSnapshots_eq_ok folder hindexed
    wellIndexed_empty hL.distinct (fun _ _ hnil => nomatch hnil)
    (fun q hq => by rw [(hmem hq).2]; exact htexts _ (hmem hq).1)
  obtain ⟨l, hl, rfl⟩ := Except.map_eq_ok_iff.mp (hload.trans ht)
  refine ⟨l, hl, ⟨fun name => ⟨hindexed name, htindexed name, ?_⟩, ?_, hs.distinct, hs.usable,
    hs.known, hs.storable⟩⟩
  · rw [htdocuments]
    split
    · rfl
    · rename_i hmissing
      rw [collection_of_not_mem fun hc => hmissing (hnames.mem_iff.mpr hc)]
      rfl
  · rw [htnames]
    exact hnames

theorem sortedNames_of_perm {names names' : List String} (h : names'.Perm names) :
    sortedNames names' = sortedNames names := by
  have hperm : (sortedNames names').Perm (sortedNames names) :=
    ((List.mergeSort_perm _ _).trans h).trans (List.mergeSort_perm _ _).symm
  exact hperm.eq_of_pairwise (fun _ _ _ _ => String.le_antisymm) (pairwise_mergeSort_le id _)
    (pairwise_mergeSort_le id _)

theorem saveAll_cons (s : Store) (folder : Route) (collection : String) (rest : List String)
    (disk : Disk) :
    saveAll s folder (collection :: rest) disk =
      match replaceFile folder (snapshotName collection) (snapshotText (s.collection collection))
        disk with
      | (.error fault, disk) =>
        (.error (.unusable (folder.join (snapshotName collection)) fault), disk)
      | (.ok (), disk) => saveAll s folder rest disk := by rfl

theorem Alike.save {files : List String} {s s' : Store} (h : Alike files s s') (folder : Route)
    (disk : Disk) : s'.save folder disk = s.save folder disk := by
  have hall (names : List String) :
      ∀ disk, saveAll s' folder names disk = saveAll s folder names disk := by
    induction names with
    | nil => exact fun _ => rfl
    | cons c names ih =>
      intro disk
      have hrows : (s'.collection c).rows = (s.collection c).rows := congrFun h.rows c
      have htext : snapshotText (s'.collection c) = snapshotText (s.collection c) := by
        rw [snapshotText, snapshotText, hrows]
      rw [saveAll_cons, saveAll_cons, htext]
      split
      · rfl
      · rename_i replaced _
        exact ih replaced
  have hnames : sortedNames (s'.collections.map (·.1)) = sortedNames (s.collections.map (·.1)) :=
    sortedNames_of_perm h.names
  simp only [Store.save, hnames, hall]

theorem replaceFile_eq_ok {folder : Route} {name text : String} {disk disk' : Disk} {way : Way}
    (h : replaceFile folder name text disk = (.ok (), disk')) (hname : Route.IsPart name)
    (hbeside : Route.IsPart (name ++ ".tmp")) (hway : disk.locate folder = .ok way)
    (hfolder : disk.kindAt way = some .folder) :
    disk.Keeps disk' ∧ ∀ other, disk'.kindAt other =
      if other = way ++ [name] then some (.file text)
      else if other = way ++ [name ++ ".tmp"] then none else disk.kindAt other := by
  unfold replaceFile at h
  simp only at h
  split at h
  · cases h
  rename_i written hwrite
  split at h
  · cases h
  rename_i hrename
  cases h
  obtain ⟨b, hb, hwritten⟩ := Disk.write_eq_ok hwrite
  have hbplace := hb.place_join hbeside hway
  have hway' := hwritten.keeps.walk hway (by rw [hwritten.keeps.folders way hfolder]; rfl)
  obtain ⟨source, target, hsource, htarget, hmove⟩ := Disk.rename_eq_ok hrename
  have hsplace := hsource.place_join hbeside hway'
  have htplace := htarget.place_join hname hway'
  obtain ⟨dropped, hdropped, hput⟩ := hmove text (by rw [hsplace, ← hbplace, hwritten.kindAt, if_pos rfl])
  refine ⟨(hwritten.keeps.trans hdropped.keeps).trans hput.keeps, fun other => ?_⟩
  rw [hput.kindAt, hdropped.kindAt, hwritten.kindAt, htplace, hsplace, hbplace]
  split
  · rfl
  · split <;> rfl

/-- The snapshots of the collections are all that is new, and no file is left beside them. -/
theorem saveAll_eq_ok {folder : Route} {names : List String} {disk disk' : Disk} {way : Way}
    (h : saveAll s folder names disk = (.ok (), disk')) (hnames : ∀ c ∈ names, IsUsable c)
    (hway : disk.locate folder = .ok way) (hfolder : disk.kindAt way = some .folder) :
    disk.Keeps disk' ∧
      (∀ c ∈ names, disk'.kindAt (way ++ [snapshotName c]) =
        some (.file (snapshotText (s.collection c)))) ∧
      ∀ other, (∀ c ∈ names, other ≠ way ++ [snapshotName c] ∧ other ≠ way ++ [besideName c]) →
        disk'.kindAt other = disk.kindAt other := by
  induction names generalizing disk with
  | nil =>
    cases h
    exact ⟨.refl _, by simp, fun _ _ => rfl⟩
  | cons c names ih =>
    rw [List.forall_mem_cons] at hnames
    rw [saveAll_cons] at h
    split at h
    · cases h
    rename_i replaced hreplace
    obtain ⟨hkeeps, hkinds⟩ := replaceFile_eq_ok hreplace hnames.1.isPart_snapshotName
      hnames.1.isPart_besideName hway hfolder
    have hfolder' := hkeeps.folders way hfolder
    obtain ⟨hrest, hwritten, hothers⟩ :=
      ih h hnames.2 (hkeeps.walk hway (by rw [hfolder']; rfl)) hfolder'
    refine ⟨hkeeps.trans hrest, List.forall_mem_cons.mpr ⟨?_, hwritten⟩, fun other ho => ?_⟩
    · by_cases hc : c ∈ names
      · exact hwritten c hc
      · rw [hothers, hkinds, if_pos rfl]
        intro c' hc'
        simp only [ne_eq, List.append_cancel_left_eq, List.cons.injEq, and_true]
        exact ⟨fun heq => hc (snapshotName_inj heq ▸ hc'), snapshotName_ne_besideName c c'⟩
    · rw [List.forall_mem_cons] at ho
      rw [hothers other ho.2, hkinds, if_neg ho.1.1]
      exact if_neg ho.1.2

end Clientele.Store
