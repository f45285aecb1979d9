import Mathlib.Data.List.Nodup
import Clientele.Files.Tree
import Clientele.Proofs.Files.Route

/-!
A tree is what stands at the end of each way. A change of one entry of a folder is seen at the end
of its way and nowhere else, unless the entry is a folder itself.
-/
set_option autoImplicit false

namespace Clientele

namespace FileTree

inductive Kind where
  | file (text : String)
  | folder

def kind : FileTree → Kind
  | file text => .file text
  | folder _ => .folder

def Kind.tree : Kind → FileTree
  | .file text => .file text
  | .folder => .folder []

def kindAt (t : FileTree) (way : Way) : Option Kind := (t.find? way).map kind

variable {t : FileTree} {es : Entries} {name : String} {way rest : Way} {k : Kind}

theorem find?_append (way rest : Way) (t : FileTree) :
    t.find? (way ++ rest) = (t.find? way).bind (find? rest) := by
  induction way generalizing t with
  | nil => rfl
  | cons name way ih =>
    cases t with
    | file text => rfl
    | folder es =>
      simp only [List.cons_append, find?, Option.bind_assoc]
      exact congrArg _ (funext ih)

theorem kindAt_append_of_find? {u : FileTree} (h : t.find? way = some u) (rest : Way) :
    t.kindAt (way ++ rest) = u.kindAt rest := by
  rw [kindAt, find?_append, h, Option.bind_some, kindAt]

theorem exists_of_kindAt_folder (h : t.kindAt way = some .folder) :
    ∃ es, t.find? way = some (folder es) := by
  obtain ⟨u, hu, hkind⟩ := Option.map_eq_some_iff.mp h
  cases u with
  | file text => cases hkind
  | folder es => exact ⟨es, hu⟩

theorem kindAt_of_find? (h : t.find? way = some (folder es)) : t.kindAt way = some .folder := by
  rw [kindAt, h]
  rfl

theorem kindAt_append_of_ne (h : t.kindAt way ≠ some .folder) (hrest : rest ≠ []) :
    t.kindAt (way ++ rest) = none := by
  rw [kindAt, find?_append]
  cases hu : t.find? way with
  | none => rfl
  | some u =>
    cases u with
    | file text =>
      cases rest with
      | nil => exact absurd rfl hrest
      | cons name rest => rfl
    | folder es => exact absurd (kindAt_of_find? hu) h

theorem kindAt_folder_cons (es : Entries) (name : String) (rest : Way) :
    (folder es).kindAt (name :: rest) = (child? es name).bind fun u => u.kindAt rest := by
  simp only [kindAt, find?]
  cases child? es name <;> rfl

theorem child?_cons (n : String) (u : FileTree) (es : Entries) (other : String) :
    child? ((n, u) :: es) other = if n = other then some u else child? es other := by
  rw [child?, List.find?_cons]
  by_cases h : n = other
  · simp [h]
  · rw [beq_eq_false_iff_ne.mpr h, if_neg h]
    rfl

theorem child?_eq_none : child? es name = none ↔ name ∉ es.map (·.1) := by
  induction es with
  | nil => simp [child?]
  | cons p es ih =>
    obtain ⟨n, u⟩ := p
    rw [child?_cons, List.map_cons, List.mem_cons, not_or, ← ih]
    by_cases h : n = name
    · simp [h]
    · simp [h, Ne.symm h]

theorem child?_map {g : FileTree → FileTree} (es : Entries) (name other : String) :
    child? (es.map fun p => if p.1 == name then (p.1, g p.2) else p) other =
      if other = name then (child? es name).map g else child? es other := by
  induction es with
  | nil => simp [child?]
  | cons p es ih =>
    obtain ⟨n, u⟩ := p
    have hhead : (if ((n, u) : String × FileTree).1 == name then (n, g u) else (n, u)) =
        (n, if n = name then g u else u) := by
      by_cases hn : n = name <;> simp [hn]
    rw [List.map_cons, hhead, child?_cons, child?_cons, child?_cons, ih]
    by_cases hn : n = name
    · subst hn
      by_cases ho : n = other
      · simp [ho]
      · simp [ho, Ne.symm ho]
    · by_cases ho : n = other
      · subst ho
        simp [hn]
      · simp [hn, ho]

theorem child?_append (es fs : Entries) (other : String) :
    child? (es ++ fs) other = (child? es other).or (child? fs other) := by
  simp only [child?, List.find?_append]
  cases es.find? (·.1 == other) <;> rfl

theorem child?_putChild (es : Entries) (name other : String) (u : FileTree) :
    child? (putChild es name u) other = if other = name then some u else child? es other := by
  unfold putChild
  split
  · rename_i hthere
    have hsame : (es.map fun p => if p.1 == name then (name, u) else p) =
        es.map fun p => if p.1 == name then (p.1, u) else p :=
      List.map_congr_left fun p _ => by
        split
        · rename_i hp
          rw [beq_iff_eq.mp hp]
        · rfl
    obtain ⟨v, hv⟩ := Option.isSome_iff_exists.mp hthere
    rw [hsame, @child?_map (fun _ => u), hv, Option.map_some]
  · rename_i hmissing
    rw [Option.not_isSome_iff_eq_none] at hmissing
    rw [child?_append, child?_cons]
    by_cases ho : other = name
    · simp [ho, hmissing]
    · simp [ho, Ne.symm ho, child?]

theorem child?_dropChild (es : Entries) (name other : String) :
    child? (dropChild es name) other = if other = name then none else child? es other := by
  induction es with
  | nil => simp [child?, dropChild]
  | cons p es ih =>
    obtain ⟨n, u⟩ := p
    rw [dropChild] at ih ⊢
    by_cases hn : n = name
    · subst hn
      rw [List.filter_cons_of_neg (by simp), ih, child?_cons]
      by_cases ho : other = n
      · simp [ho]
      · simp [ho, Ne.symm ho]
    · rw [List.filter_cons_of_pos (by simpa using hn), child?_cons, child?_cons, ih]
      by_cases ho : n = other
      · subst ho
        simp [hn]
      · simp [ho]

theorem kindAt_adjust {f : Entries → Entries} (h : t.find? way = some (folder es)) (other : Way) :
    (t.adjust f way).kindAt other =
      if way <+: other then (folder (f es)).kindAt (other.drop way.length)
      else t.kindAt other := by
  induction way generalizing t other with
  | nil =>
    cases h
    simp [adjust]
  | cons name way ih =>
    cases t with
    | file text => cases h
    | folder fs =>
      obtain ⟨u, hu, hbelow⟩ := Option.bind_eq_some_iff.mp h
      rw [adjust]
      cases other with
      | nil => rfl
      | cons other rest =>
        rw [kindAt_folder_cons, child?_map]
        by_cases ho : other = name
        · subst ho
          simp [hu, ih hbelow, kindAt_folder_cons, List.cons_prefix_cons]
        · have hno : ¬name :: way <+: other :: rest := fun hp =>
            ho (List.cons_prefix_cons.mp hp).1.symm
          rw [if_neg ho, if_neg hno, kindAt_folder_cons]

theorem kindAt_adjust_of_child {f : Entries → Entries} {k? : Option Kind}
    (hf : ∀ other, child? (f es) other = if other = name then k?.map Kind.tree else child? es other)
    (h : t.find? way = some (folder es)) (hfree : t.kindAt (way ++ [name]) ≠ some .folder)
    (other : Way) :
    (t.adjust f way).kindAt other = if other = way ++ [name] then k? else t.kindAt other := by
  rw [kindAt_adjust h]
  by_cases hprefix : way <+: other
  · obtain ⟨rest, rfl⟩ := hprefix
    rw [if_pos (List.prefix_append _ _), List.drop_left]
    cases rest with
    | nil =>
      rw [if_neg (by simp), List.append_nil]
      exact (kindAt_of_find? h).symm
    | cons first rest =>
      rw [kindAt_folder_cons, hf]
      by_cases hfirst : first = name
      · subst hfirst
        cases rest with
        | nil =>
          rw [if_pos rfl, if_pos rfl]
          cases k? with
          | none => rfl
          | some k => cases k <;> rfl
        | cons second rest =>
          have hbefore : t.kindAt (way ++ first :: second :: rest) = none := by
            have hbelow : t.kindAt (way ++ [first] ++ second :: rest) = none :=
              kindAt_append_of_ne hfree (by simp)
            rwa [List.append_assoc, List.singleton_append] at hbelow
          rw [if_pos rfl, if_neg (by simp), hbefore]
          cases k? with
          | none => rfl
          | some k => cases k <;> rfl
      · rw [if_neg hfirst, if_neg (by simp [hfirst]), kindAt_append_of_find? h, kindAt_folder_cons]
  · have hne : other ≠ way ++ [name] := fun heq => hprefix (heq ▸ List.prefix_append _ _)
    rw [if_neg hprefix, if_neg hne]

/-- Names in a folder are distinct and have no slash in them, at every depth. -/
inductive IsTidy : FileTree → Prop
  | file (text : String) : IsTidy (.file text)
  | folder {es : Entries} (distinct : (es.map (·.1)).Nodup) (parts : ∀ p ∈ es, Route.IsPart p.1)
    (below : ∀ p ∈ es, IsTidy p.2) : IsTidy (.folder es)

theorem isTidy_nil : (FileTree.folder []).IsTidy := .folder (by simp) (by simp) (by simp)

theorem Kind.isTidy_tree (k : Kind) : k.tree.IsTidy := by
  cases k with
  | file text => exact .file text
  | folder => exact isTidy_nil

theorem IsTidy.of_find? (ht : t.IsTidy) {u : FileTree} (h : t.find? way = some u) : u.IsTidy := by
  induction way generalizing t with
  | nil =>
    cases h
    exact ht
  | cons name way ih =>
    cases ht with
    | file text => cases h
    | folder distinct parts below =>
      obtain ⟨v, hv, h⟩ := Option.bind_eq_some_iff.mp h
      obtain ⟨p, hp, rfl⟩ := Option.map_eq_some_iff.mp hv
      exact ih (below p (List.mem_of_find?_eq_some hp)) h

theorem IsTidy.adjust (ht : t.IsTidy) {f : Entries → Entries}
    (hf : ∀ es, (FileTree.folder es).IsTidy → (FileTree.folder (f es)).IsTidy) (way : Way) :
    (t.adjust f way).IsTidy := by
  induction way generalizing t with
  | nil =>
    cases ht with
    | file text => exact .file text
    | folder distinct parts below => exact hf _ (.folder distinct parts below)
  | cons name way ih =>
    cases ht with
    | file text => exact .file text
    | @folder es distinct parts below =>
      have hnames : (es.map fun p => if p.1 == name then (p.1, p.2.adjust f way) else p).map (·.1) =
          es.map (·.1) := by
        rw [List.map_map]
        exact List.map_congr_left fun p _ => by
          rw [Function.comp_apply]
          split <;> rfl
      refine .folder (hnames ▸ distinct) ?_ ?_
      all_goals
        rw [List.forall_mem_map]
        intro p hp
        split
      · exact parts p hp
      · exact parts p hp
      · exact ih (below p hp)
      · exact below p hp

theorem IsTidy.putChild (h : (FileTree.folder es).IsTidy) (hname : Route.IsPart name)
    {u : FileTree} (hu : u.IsTidy) : (FileTree.folder (putChild es name u)).IsTidy := by
  obtain ⟨⟩ | ⟨distinct, parts, below⟩ := h
  unfold FileTree.putChild
  split
  · have hnames : (es.map fun p => if p.1 == name then (name, u) else p).map (·.1) =
        es.map (·.1) := by
      rw [List.map_map]
      exact List.map_congr_left fun p _ => by
        rw [Function.comp_apply]
        split
        · rename_i hp
          exact (beq_iff_eq.mp hp).symm
        · rfl
    refine .folder (hnames ▸ distinct) ?_ ?_
    all_goals
      rw [List.forall_mem_map]
      intro p hp
      split
    · exact hname
    · exact parts p hp
    · exact hu
    · exact below p hp
  · rename_i hmissing
    have hnew := child?_eq_none.mp (Option.not_isSome_iff_eq_none.mp hmissing)
    refine .folder ?_ ?_ ?_
    · rw [List.map_append, List.map_singleton]
      refine List.nodup_append.mpr ⟨distinct, List.pairwise_singleton _ _, ?_⟩
      rintro n hn m hm rfl
      obtain rfl := List.mem_singleton.mp hm
      exact hnew hn
    · exact List.forall_mem_append.mpr ⟨parts, by simpa using hname⟩
    · exact List.forall_mem_append.mpr ⟨below, by simpa using hu⟩

theorem IsTidy.dropChild (h : (FileTree.folder es).IsTidy) (name : String) :
    (FileTree.folder (dropChild es name)).IsTidy := by
  obtain ⟨⟩ | ⟨distinct, parts, below⟩ := h
  exact .folder (distinct.sublist (List.filter_sublist.map _))
    (fun p hp => parts p (List.mem_of_mem_filter hp))
    (fun p hp => below p (List.mem_of_mem_filter hp))

theorem IsTidy.child?_eq_some (h : (FileTree.folder es).IsTidy) {u : FileTree} :
    child? es name = some u ↔ (name, u) ∈ es := by
  obtain ⟨⟩ | ⟨distinct, -, -⟩ := h
  induction es with
  | nil => simp [child?]
  | cons p es ih =>
    obtain ⟨n, v⟩ := p
    rw [List.map_cons, List.nodup_cons] at distinct
    rw [child?_cons, List.mem_cons, ← ih distinct.2]
    by_cases hn : n = name
    · subst hn
      simp [child?_eq_none.mpr distinct.1, eq_comm]
    · simp [hn, Ne.symm hn]

theorem IsTidy.isPart (ht : t.IsTidy) (h : (t.kindAt (way ++ [name])).isSome) :
    Route.IsPart name := by
  obtain ⟨es, hes⟩ : ∃ es, t.find? way = some (FileTree.folder es) := by
    by_contra hnone
    rw [kindAt_append_of_ne (fun hfolder => hnone (exists_of_kindAt_folder hfolder)) (by simp)] at h
    cases h
  rw [kindAt_append_of_find? hes, kindAt_folder_cons] at h
  obtain ⟨k, hk⟩ := Option.isSome_iff_exists.mp h
  obtain ⟨u, hu, -⟩ := Option.bind_eq_some_iff.mp hk
  have hfolder := ht.of_find? hes
  have hmem := hfolder.child?_eq_some.mp hu
  cases hfolder with
  | folder distinct parts below => exact parts _ hmem

theorem IsTidy.mem_filesOf (h : (FileTree.folder es).IsTidy) {text : String} :
    (name, text) ∈ (FileTree.folder es).filesOf ↔
      (FileTree.folder es).kindAt [name] = some (.file text) := by
  rw [kindAt_folder_cons, filesOf, List.mem_filterMap, Option.bind_eq_some_iff]
  constructor
  · rintro ⟨⟨n, u⟩, hmem, heq⟩
    cases u with
    | file text' =>
      cases heq
      exact ⟨_, h.child?_eq_some.mpr hmem, rfl⟩
    | folder fs => cases heq
  · rintro ⟨u, hu, hkind⟩
    cases u with
    | file text' =>
      cases hkind
      exact ⟨_, h.child?_eq_some.mp hu, rfl⟩
    | folder fs => cases hkind

theorem IsTidy.nodup_filesOf (h : (FileTree.folder es).IsTidy) :
    ((FileTree.folder es).filesOf.map (·.1)).Nodup := by
  obtain ⟨⟩ | ⟨distinct, -, -⟩ := h
  refine distinct.sublist ?_
  clear distinct
  induction es with
  | nil => simp [filesOf]
  | cons p es ih =>
    obtain ⟨n, u⟩ := p
    cases u with
    | file text => simpa [filesOf] using ih
    | folder fs =>
      simp only [filesOf, List.filterMap_cons, List.map_cons] at ih ⊢
      exact ih.cons _

end FileTree

end Clientele
