import Clientele.Proofs.Store.Snapshot

/-!
Writes that are refused, or that find no document. Nothing that is asked of a store afterwards tells
them from no write at all. A store that is saved does: the first insertion under a name makes a
collection there, even if it is refused, and the empty collection gets a snapshot.
-/
set_option autoImplicit false

namespace Clientele.Store

variable {s s' t : Store} {name : String}

theorem mem_collectionNames_put {c : Collection} {n : String} :
    n ∈ (s.put name c).collectionNames ↔ n = name ∨ n ∈ s.collectionNames := by
  rw [collectionNames_put]
  split
  · rename_i hthere
    exact ⟨.inr, fun h => h.elim (· ▸ hthere) id⟩
  · rw [List.mem_append, List.mem_singleton, or_comm]

theorem collection_of_mem (hs : s.collectionNames.Nodup) {p : String × Collection}
    (hp : p ∈ s.collections) : s.collection p.1 = p.2 := by
  rw [collection, collection?]
  cases hfind : s.collections.find? (·.1 == p.1) with
  | none => exact absurd (beq_self_eq_true p.1) (List.find?_eq_none.mp hfind p hp)
  | some q =>
    have hkey : q.1 = p.1 := by simpa using List.find?_some hfind
    rw [List.inj_on_of_nodup_map hs (List.mem_of_find?_eq_some hfind) hp hkey]
    rfl

theorem put_collection (hs : s.collectionNames.Nodup) (hname : name ∈ s.collectionNames) :
    s.put name (s.collection name) = s := by
  have hthere : (s.collection? name).isSome :=
    Option.isSome_iff_ne_none.mpr fun hnone => collection?_eq_none.mp hnone hname
  rw [put, if_pos hthere]
  refine congrArg Store.mk ((List.map_congr_left fun p hp => ?_).trans (List.map_id' _))
  split
  · rename_i heq
    obtain rfl := beq_iff_eq.mp heq
    rw [collection_of_mem hs hp]
  · rfl

theorem mem_of_documents_ne_nil {n : String} (h : (s.collection n).documents ≠ []) :
    n ∈ s.collectionNames := by
  by_contra hmissing
  rw [collection_of_not_mem hmissing] at h
  exact h rfl

def filledNames (s : Store) : List String :=
  (s.collections.filter fun p => !p.2.documents.isEmpty).map (·.1)

theorem names_eq_sorted (s : Store) : s.names = sortedNames s.filledNames := by rfl

theorem mem_filledNames {n : String} (hs : s.collectionNames.Nodup) :
    n ∈ s.filledNames ↔ (s.collection n).documents ≠ [] := by
  rw [filledNames, List.mem_map]
  constructor
  · rintro ⟨p, hp, rfl⟩
    obtain ⟨hp, hdocuments⟩ := List.mem_filter.mp hp
    rw [collection_of_mem hs hp]
    simpa using hdocuments
  · intro hdocuments
    obtain ⟨p, hp, rfl⟩ := List.mem_map.mp (mem_of_documents_ne_nil hdocuments)
    rw [collection_of_mem hs hp] at hdocuments
    exact ⟨p, List.mem_filter.mpr ⟨hp, by simpa using hdocuments⟩, rfl⟩

theorem nodup_filledNames (hs : s.collectionNames.Nodup) : s.filledNames.Nodup :=
  hs.sublist (List.filter_sublist.map _)

/-- The files that a save writes, with their texts, in the order in which they are written. -/
def files (s : Store) : List (String × String) :=
  (sortedNames s.collectionNames).map fun c => (snapshotName c, snapshotText (s.collection c))

/-- Files are put into a folder one after another, until one cannot be. -/
def replaceFiles (folder : Route) : List (String × String) → Disk → Except SnapshotError Unit × Disk
  | [], disk => (.ok (), disk)
  | (name, text) :: rest, disk =>
    match replaceFile folder name text disk with
    | (.error fault, disk) => (.error (.unusable (folder.join name) fault), disk)
    | (.ok (), disk) => replaceFiles folder rest disk

theorem replaceFiles_cons (folder : Route) (name text : String) (rest : List (String × String))
    (disk : Disk) :
    replaceFiles folder ((name, text) :: rest) disk =
      match replaceFile folder name text disk with
      | (.error fault, disk) => (.error (.unusable (folder.join name) fault), disk)
      | (.ok (), disk) => replaceFiles folder rest disk := by rfl

theorem saveAll_eq_replaceFiles (s : Store) (folder : Route) (names : List String) (disk : Disk) :
    saveAll s folder names disk = replaceFiles folder
      (names.map fun c => (snapshotName c, snapshotText (s.collection c))) disk := by
  induction names generalizing disk with
  | nil => rfl
  | cons c names ih =>
    rw [saveAll_cons, List.map_cons, replaceFiles_cons]
    rcases replaceFile folder (snapshotName c) (snapshotText (s.collection c)) disk with ⟨_ | _, disk⟩
    · rfl
    · exact ih disk

/-- A save writes these files and does nothing else. -/
theorem save_eq_replaceFiles (s : Store) (folder : Route) (disk : Disk) :
    s.save folder disk = match disk.makeFolders (folder :: folder.above) with
      | (.error fault, disk) => (.error (.unusable folder fault), disk)
      | (.ok (), disk) => replaceFiles folder s.files disk := by
  unfold save
  rcases disk.makeFolders (folder :: folder.above) with ⟨_ | _, disk⟩
  · rfl
  · exact saveAll_eq_replaceFiles s folder _ disk

inductive Operation where
  | call (c : Call)
  | aggregate (name : String) (p : Query.Pipeline)
  | names

inductive Reply where
  | answer (a : Answer)
  | documents (docs : List Json)
  | names (names : List String)
  deriving DecidableEq

def Operation.run (s : Store) : Operation → Reply × Store
  | call c =>
    match c.run s with
    | (a, s) => (.answer a, s)
  | aggregate name p => (.documents (s.aggregate name p), s)
  | names => (.names s.names, s)

/-- The replies to operations one after another, and the store after them. -/
def operate (s : Store) : List Operation → List Reply × Store
  | [] => ([], s)
  | o :: os =>
    match o.run s with
    | (reply, s) =>
      match s.operate os with
      | (replies, s) => (reply :: replies, s)

def Operation.InsertsAt (name : String) (o : Operation) : Prop :=
  ∃ doc, o = .call (.insert name doc)

theorem delete_eq_none {id : Identifier} (h : s.delete name id = (none, s')) : s' = s := by
  unfold delete at h
  split at h <;> cases h
  rfl

theorem insert_eq_error {doc : Json} {e : InsertError} (h : s.insert name doc = (.error e, s')) :
    s' = s.put name (s.collection name) := by
  unfold insert at h
  split at h <;> cases h
  rfl

/-- The same documents everywhere. One of the stores may lack a collection that is empty in the
other. -/
structure Shadows (name : String) (s s' : Store) : Prop where
  collections : ∀ n, s'.collection n = s.collection n
  distinct : s.collectionNames.Nodup
  distinct' : s'.collectionNames.Nodup
  names : ∀ n, n ∈ s'.collectionNames ↔ n = name ∨ n ∈ s.collectionNames

namespace Shadows

theorem put (h : Shadows name s s') (n : String) (c : Collection) :
    Shadows name (s.put n c) (s'.put n c) where
  collections other := by rw [collection_put, collection_put, h.collections]
  distinct := nodup_collectionNames_put h.distinct n c
  distinct' := nodup_collectionNames_put h.distinct' n c
  names other := by
    rw [mem_collectionNames_put, mem_collectionNames_put, h.names]
    exact or_left_comm

theorem rows (h : Shadows name s s') : s'.rows = s.rows := by
  funext n
  rw [Store.rows, Store.rows, h.collections]

theorem names_eq (h : Shadows name s s') : s'.names = s.names := by
  rw [names_eq_sorted, names_eq_sorted]
  refine sortedNames_of_perm ((List.perm_ext_iff_of_nodup (nodup_filledNames h.distinct')
    (nodup_filledNames h.distinct)).mpr fun n => ?_)
  rw [mem_filledNames h.distinct', mem_filledNames h.distinct, h.collections]

theorem call (h : Shadows name s s') (c : Call) :
    ∃ answer t t', c.run s = (answer, t) ∧ c.run s' = (answer, t') ∧ Shadows name t t' := by
  cases c with
  | insert n doc =>
    simp only [Call.run, Store.insert, h.collections]
    split <;> exact ⟨_, _, _, rfl, rfl, h.put n _⟩
  | update n id patch =>
    simp only [Call.run, Store.update, h.collections]
    split
    · exact ⟨_, _, _, rfl, rfl, h.put n _⟩
    · exact ⟨_, s, s', rfl, rfl, h⟩
  | delete n id =>
    simp only [Call.run, Store.delete, h.collections]
    split
    · exact ⟨_, _, _, rfl, rfl, h.put n _⟩
    · exact ⟨_, s, s', rfl, rfl, h⟩
  | get n id => exact ⟨_, s, s', rfl, by rw [Call.run, Store.get?, h.collections]; rfl, h⟩
  | countAll n => exact ⟨_, s, s', rfl, by rw [Call.run, Store.countAll, h.collections]; rfl, h⟩
  | rows n => exact ⟨_, s, s', rfl, by rw [Call.run, Store.aggregate, h.rows]; rfl, h⟩

theorem run (h : Shadows name s s') (o : Operation) :
    ∃ reply t t', o.run s = (reply, t) ∧ o.run s' = (reply, t') ∧ Shadows name t t' := by
  cases o with
  | call c =>
    obtain ⟨answer, t, t', ht, ht', hshadows⟩ := h.call c
    exact ⟨.answer answer, t, t', by rw [Operation.run, ht], by rw [Operation.run, ht'], hshadows⟩
  | aggregate n p =>
    exact ⟨_, s, s', rfl, by rw [Operation.run, Store.aggregate, h.rows]; rfl, h⟩
  | names => exact ⟨_, s, s', rfl, by rw [Operation.run, h.names_eq], h⟩

theorem operate (h : Shadows name s s') (os : List Operation) :
    ∃ replies t t', s.operate os = (replies, t) ∧ s'.operate os = (replies, t') ∧ Shadows name t t' := by
  induction os generalizing s s' with
  | nil => exact ⟨[], s, s', rfl, rfl, h⟩
  | cons o os ih =>
    obtain ⟨reply, t, t', ht, ht', hshadows⟩ := h.run o
    obtain ⟨replies, u, u', hu, hu', hlast⟩ := ih hshadows
    refine ⟨reply :: replies, u, u', ?_, ?_, hlast⟩
    · simp only [Store.operate, ht, hu]
    · simp only [Store.operate, ht', hu']

theorem files_eq (h : Shadows name s s') (hname : name ∈ s.collectionNames) : s'.files = s.files := by
  have hperm : s'.collectionNames.Perm s.collectionNames := by
    refine (List.perm_ext_iff_of_nodup h.distinct' h.distinct).mpr fun n => ?_
    rw [h.names]
    exact or_iff_right_of_imp fun heq => heq ▸ hname
  rw [files, files, sortedNames_of_perm hperm]
  simp only [h.collections]

theorem files_perm (h : Shadows name s s') (hname : name ∉ s.collectionNames) :
    s'.files.Perm ((snapshotName name, "[]") :: s.files) := by
  have hperm : s'.collectionNames.Perm (name :: s.collectionNames) :=
    (List.perm_ext_iff_of_nodup h.distinct' (List.nodup_cons.mpr ⟨hname, h.distinct⟩)).mpr fun n => by
      rw [h.names, List.mem_cons]
  have htext : snapshotText (s.collection name) = "[]" := by
    rw [collection_of_not_mem hname]
    rfl
  have hsorted : (sortedNames s'.collectionNames).Perm (name :: sortedNames s.collectionNames) :=
    (List.mergeSort_perm _ _).trans (hperm.trans ((List.mergeSort_perm _ _).symm.cons name))
  have hfiles := hsorted.map fun c => (snapshotName c, snapshotText (s.collection c))
  rw [List.map_cons, htext] at hfiles
  rw [files, files]
  simp only [h.collections]
  exact hfiles

end Shadows

theorem mem_of_getElem? {n : String} {i : Nat} {doc : Fields}
    (h : (s.collection n).documents[i]? = some doc) : n ∈ s.collectionNames :=
  mem_of_documents_ne_nil (List.ne_nil_of_mem (List.mem_of_getElem? h))

theorem mem_collectionNames_run {o : Operation} :
    name ∈ (o.run s).2.collectionNames ↔ name ∈ s.collectionNames ∨ o.InsertsAt name := by
  have hput {n : String} (c : Collection) (hn : n ∈ s.collectionNames) :
      name ∈ (s.put n c).collectionNames ↔ name ∈ s.collectionNames := by
    rw [mem_collectionNames_put]
    exact or_iff_right_of_imp fun heq => heq ▸ hn
  cases o with
  | call c =>
    cases c with
    | insert n doc =>
      have hinserts : (Operation.call (.insert n doc)).InsertsAt name ↔ name = n := by
        simp [Operation.InsertsAt, eq_comm]
      rw [hinserts, or_comm]
      simp only [Operation.run, Call.run, Store.insert]
      split <;> exact mem_collectionNames_put
    | update n id patch =>
      rw [or_iff_left (by simp [Operation.InsertsAt])]
      simp only [Operation.run, Call.run, Store.update]
      split
      · rename_i hupdate
        obtain ⟨_, _, -, hold, -⟩ := Collection.update_eq_some hupdate
        exact hput _ (mem_of_getElem? hold)
      · rfl
    | delete n id =>
      rw [or_iff_left (by simp [Operation.InsertsAt])]
      simp only [Operation.run, Call.run, Store.delete]
      split
      · rename_i hdelete
        obtain ⟨_, -, hold, -⟩ := Collection.delete_eq_some hdelete
        exact hput _ (mem_of_getElem? hold)
      · rfl
    | get | countAll | rows => exact (or_iff_left (by simp [Operation.InsertsAt])).symm
  | aggregate | names => exact (or_iff_left (by simp [Operation.InsertsAt])).symm

theorem mem_collectionNames_operate {os : List Operation} :
    name ∈ (s.operate os).2.collectionNames ↔
      name ∈ s.collectionNames ∨ ∃ o ∈ os, o.InsertsAt name := by
  induction os generalizing s with
  | nil => simp [operate]
  | cons o os ih =>
    have hrest : (s.operate (o :: os)).2 = ((o.run s).2.operate os).2 := rfl
    rw [hrest, ih, mem_collectionNames_run, or_assoc]
    exact or_congr_right (by simp)

theorem Shadows.of_refused {doc : Json} {e : InsertError} (hs : s.collectionNames.Nodup)
    (h : s.insert name doc = (.error e, s')) : Shadows name s s' := by
  obtain rfl := insert_eq_error h
  exact ⟨collection_insert_of_error h, hs, nodup_collectionNames_put hs name _,
    fun _ => mem_collectionNames_put⟩

theorem save_of_files_eq (h : s'.files = s.files) (folder : Route) (disk : Disk) :
    s'.save folder disk = s.save folder disk := by
  rw [save_eq_replaceFiles, save_eq_replaceFiles, h]

/-- An update or a deletion that finds no document leaves a store as it was, and so does an
insertion that is refused under a name that has a collection. After a refused insertion all
operations reply as without it. A save writes the same files, if the name had a collection or an
insertion is tried under it later; otherwise it writes one file more, with the name of the
collection and an empty list. -/
theorem operate_of_refused (hs : s.collectionNames.Nodup) :
    (∀ name id patch s', s.update name id patch = (none, s') → s' = s) ∧
    (∀ name id s', s.delete name id = (none, s') → s' = s) ∧
    (∀ name doc e s', s.insert name doc = (.error e, s') →
      (name ∈ s.collectionNames → s' = s) ∧
      ∀ os : List Operation,
        (s'.operate os).1 = (s.operate os).1 ∧
        (name ∈ s.collectionNames ∨ (∃ o ∈ os, o.InsertsAt name) →
          (s'.operate os).2.files = (s.operate os).2.files ∧
          ∀ folder disk, (s'.operate os).2.save folder disk = (s.operate os).2.save folder disk) ∧
        (¬(name ∈ s.collectionNames ∨ ∃ o ∈ os, o.InsertsAt name) →
          (s'.operate os).2.files.Perm ((snapshotName name, "[]") :: (s.operate os).2.files))) ∧
    ∀ (t : Store) folder disk, t.save folder disk =
      match disk.makeFolders (folder :: folder.above) with
      | (.error fault, disk) => (.error (.unusable folder fault), disk)
      | (.ok (), disk) => replaceFiles folder t.files disk := by
  refine ⟨fun name id patch s' => update_eq_none, fun name id s' => delete_eq_none, ?_,
    save_eq_replaceFiles⟩
  intro name doc e s' hrefused
  refine ⟨fun hname => ?_, fun os => ?_⟩
  · rw [insert_eq_error hrefused, put_collection hs hname]
  · obtain ⟨replies, t, t', ht, ht', hshadows⟩ := (Shadows.of_refused hs hrefused).operate os
    rw [← mem_collectionNames_operate, ht, ht']
    refine ⟨rfl, fun hname => ?_, hshadows.files_perm⟩
    have hfiles := hshadows.files_eq hname
    exact ⟨hfiles, save_of_files_eq hfiles⟩

theorem operate_of_refused_contacts :
    let s : Store := (empty.insert "deals" (.obj [("_id", .str "0000000000000000000000000000000a")])).2
    let s' : Store := (s.insert "contacts" (.arr [])).2
    s.insert "contacts" (.arr []) = (.error (.notObject "contacts"), s') ∧
      (s'.operate [.names]).1 = [.names ["deals"]] ∧
      s'.files.Perm (("contacts.json", "[]") :: s.files) := by
  intro s s'
  have hs : s.collectionNames.Nodup := by decide +kernel
  have hrefused : s.insert "contacts" (.arr []) = (.error (.notObject "contacts"), s') := rfl
  obtain ⟨-, -, hinsert, -⟩ := operate_of_refused hs
  obtain ⟨hreplies, -, hfiles⟩ := (hinsert _ _ _ _ hrefused).2 [.names]
  refine ⟨hrefused, hreplies.trans (by decide +kernel), hfiles ?_⟩
  rintro (hthere | ⟨o, ho, hinserts⟩)
  · exact absurd hthere (by decide +kernel)
  · obtain rfl := List.mem_singleton.mp ho
    obtain ⟨doc, hdoc⟩ := hinserts
    cases hdoc

/-- A save tells a store that refused a document from one that was not offered it, and it cannot be
done any more if the name leads to another folder. -/
theorem refusal_saved :
    let after (name : String) : Store := (empty.insert name (.arr [])).2
    let save (s : Store) := s.save ⟨"data"⟩ ⟨.folder [], []⟩
    (∀ name ∈ ["deals", "deals/won"],
      (empty.insert name (.arr [])).1 = .error (.notObject name)) ∧
    (empty.files = [] ∧ (save empty).1.toBool ∧ snapshotAt ⟨"data"⟩ (save empty).2 "deals" = none) ∧
    ((after "deals").files = [("deals.json", "[]")] ∧ (save (after "deals")).1.toBool ∧
      snapshotAt ⟨"data"⟩ (save (after "deals")).2 "deals" = some "[]") ∧
    (save (after "deals/won")).1.toBool = false := by
  decide +kernel

end Clientele.Store
