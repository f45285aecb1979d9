import Clientele.Proofs.Files.Disk

/-!
Files are written and moved, and folders are made, each at the place that a route leads to. Making
folders where there are some already changes nothing.
-/
set_option autoImplicit false

namespace Clientele.Disk

open FileTree (Kind Way)

variable {d d' d'' : Disk} {r : Route} {s : Site} {way way' : Way}

theorem isPart_of_mem_folderParts {name : String} (h : name ∈ r.folderParts) :
    Route.IsPart name := by
  obtain ⟨n, hparts⟩ := r.parts_eq_folderParts
  exact Route.isPart_of_mem_parts (hparts ▸ List.mem_append_left _ h)

theorem kindAt_ne_folder {parts : List String} (hs : s.IsAt d r parts)
    (h : ∀ es, s.content? ≠ some (.folder es)) : d.kindAt s.place ≠ some .folder := by
  rw [hs.kindAt_place]
  intro hkind
  obtain ⟨t, ht, hfolder⟩ := Option.map_eq_some_iff.mp hkind
  cases t with
  | file text => cases hfolder
  | folder es => exact h es ht

theorem write_eq_ok {text : String} (h : d.write r text = .ok d') :
    ∃ s : Site, s.IsAt d r r.parts ∧ d.Sets d' s.place (some (.file text)) := by
  obtain ⟨s, hs, h⟩ := Except.bind_eq_ok_iff.mp h
  have hat := site_eq_ok hs
  split at h
  · cases h
  · rename_i hcontent
    cases h
    have hname := hat.isPart fun p => Route.isPart_of_mem_parts
    exact ⟨s, hat, sets_put hat.kindAt_folder hname (kindAt_ne_folder hat hcontent) (.file text)⟩

theorem rename_eq_ok {source target : Route} (h : d.rename source target = .ok d') :
    ∃ s t : Site, s.IsAt d source source.parts ∧ t.IsAt d target target.parts ∧
      ∀ text, d.kindAt s.place = some (.file text) →
        ∃ d₁, d.Sets d₁ s.place none ∧ d₁.Sets d' t.place (some (.file text)) := by
  obtain ⟨s, hs, h⟩ := Except.bind_eq_ok_iff.mp h
  obtain ⟨t, ht, h⟩ := Except.bind_eq_ok_iff.mp h
  have hsource := site_eq_ok hs
  have htarget := site_eq_ok ht
  refine ⟨s, t, hsource, htarget, fun text hkind => ?_⟩
  split at h
  · cases h
  · cases h
  · rename_i _ content hcontent hfree
    cases h
    rw [hsource.kindAt_place, hcontent, Option.map_some, Option.some_inj] at hkind
    obtain rfl : content = .file text := by
      cases content with
      | file text' =>
        cases hkind
        rfl
      | folder es => cases hkind
    have hfile : d.kindAt s.place ≠ some .folder := by
      rw [hsource.kindAt_place, hcontent]
      simp [FileTree.kind]
    have hdrop := sets_drop hsource.kindAt_folder hfile
    have hname := htarget.isPart fun p => Route.isPart_of_mem_parts
    have hgone : (d.drop s).kindAt t.place ≠ some .folder := by
      rw [hdrop.kindAt]
      split
      · simp
      · exact kindAt_ne_folder htarget hfree
    exact ⟨d.drop s, hdrop,
      sets_put (hdrop.keeps.folders _ htarget.kindAt_folder) hname hgone (.file text)⟩

theorem Site.IsAt.place_join {folder : Route} {name : String}
    (h : s.IsAt d (folder.join name) (folder.join name).parts) (hname : Route.IsPart name)
    (hway : d.locate folder = .ok way) : s.place = way ++ [name] := by
  obtain ⟨hfault, hrun⟩ := walk_eq_ok.mp hway
  obtain ⟨-, hsite⟩ := walk_eq_ok.mp h.walk
  have hroute : folder.text ≠ "" := by
    intro hempty
    simp [routeFault?, hempty] at hfault
  have hbase : d.base (folder.join name) = d.base folder := by
    rw [base, base, Route.fromRoot_join hname hroute]
  obtain ⟨ps, hparts, hfolder⟩ := @Route.parts_join folder name hname
  have hparts_eq := h.parts_eq
  rw [hparts, List.dropLast_concat] at hsite hparts_eq
  rw [hbase] at hsite
  have hps : ps.foldlM d.step (d.base folder) = .ok way := by
    rcases hfolder with hfolder | hfolder
    · rwa [hfolder] at hrun
    · rw [hfolder] at hrun
      obtain ⟨w, hw, hlast⟩ := foldlM_step_append.mp hrun
      obtain ⟨w', hstep, hnil⟩ := foldlM_step_cons.mp hlast
      cases hnil
      obtain ⟨-, hleads⟩ := step_eq_ok.mp hstep
      generalize hblank : "" = blank at hleads
      cases hleads with
      | idle => exact hw
      | up => exact absurd hblank (by decide)
      | down hempty =>
        subst hblank
        cases hempty
  cases hps.symm.trans hsite
  rw [Site.place, (List.append_inj' hparts_eq rfl).2]

structure Extends (d d' : Disk) : Prop extends d.Keeps d' where
  kindAt : ∀ way, d'.kindAt way = d.kindAt way ∨
    d.kindAt way = none ∧ d'.kindAt way = some .folder

theorem Extends.refl (d : Disk) : d.Extends d := ⟨.refl d, fun _ => .inl rfl⟩

theorem Extends.trans (h : d.Extends d') (h' : d'.Extends d'') : d.Extends d'' := by
  refine ⟨h.toKeeps.trans h'.toKeeps, fun way => ?_⟩
  rcases h.kindAt way with hsame | ⟨hnone, hfolder⟩
  · rw [← hsame]
    exact h'.kindAt way
  · exact .inr ⟨hnone, h'.folders way hfolder⟩

theorem makeFolder_eq_ok (h : d.makeFolder r = .ok d') :
    ∃ s : Site, s.IsAt d r r.folderParts ∧ d.kindAt s.place = none ∧
      d.Sets d' s.place (some .folder) := by
  obtain ⟨s, hs, h⟩ := Except.bind_eq_ok_iff.mp h
  have hat := site_eq_ok hs
  split at h
  · cases h
  · rename_i hcontent
    cases h
    have hnone : d.kindAt s.place = none := by
      rw [hat.kindAt_place, hcontent]
      rfl
    have hname := hat.isPart fun p => isPart_of_mem_folderParts
    exact ⟨s, hat, hnone, sets_put hat.kindAt_folder hname (by simp [hnone]) .folder⟩

theorem isFolder_of_makeFolder (h : d.makeFolder r = .ok d') : d'.isFolder r := by
  obtain ⟨s, hat, -, hsets⟩ := makeFolder_eq_ok h
  have hkind : d'.kindAt s.place = some .folder := by rw [hsets.kindAt, if_pos rfl]
  -- The empty parts at the end of the route stay in the new folder.
  obtain ⟨hfault, hrun⟩ := walk_eq_ok.mp (hsets.walk_place hat)
  obtain ⟨n, hparts⟩ := r.parts_eq_folderParts
  refine isFolder_iff.mpr ⟨s.place, walk_eq_ok.mpr ⟨hfault, ?_⟩, hkind⟩
  rw [hparts]
  exact foldlM_step_append.mpr ⟨s.place, hrun, foldlM_step_replicate hkind n⟩

theorem makeFolder_ne_ok (h : d.isFolder r) : d.makeFolder r ≠ .ok d' := by
  intro hmake
  obtain ⟨s, hat, hnone, -⟩ := makeFolder_eq_ok hmake
  obtain ⟨way, hlocate, hkind⟩ := isFolder_iff.mp h
  obtain ⟨n, hparts⟩ := r.parts_eq_folderParts
  obtain ⟨hfault, hrun⟩ := walk_eq_ok.mp hlocate
  rw [hparts] at hrun
  obtain ⟨w, hw, -⟩ := foldlM_step_append.mp hrun
  have hthere := (hat.place_eq (walk_eq_ok.mpr ⟨hfault, hw⟩)).2
  rw [hnone] at hthere
  cases hthere

theorem ensureFolder_of_isFolder (h : d.isFolder r) : d.ensureFolder r = .ok d := by
  unfold ensureFolder
  split
  · rename_i hmake
    exact absurd hmake (makeFolder_ne_ok h)
  · rw [if_pos h]

theorem ensureFolder_eq_ok (h : d.ensureFolder r = .ok d') : d.Extends d' ∧ d'.isFolder r := by
  unfold ensureFolder at h
  split at h
  · rename_i hmake
    cases h
    obtain ⟨s, -, hnone, hsets⟩ := makeFolder_eq_ok hmake
    refine ⟨⟨hsets.keeps, fun way => ?_⟩, isFolder_of_makeFolder hmake⟩
    rw [hsets.kindAt]
    split
    · rename_i heq
      exact .inr ⟨heq ▸ hnone, rfl⟩
    · exact .inl rfl
  · split at h
    · rename_i hthere
      cases h
      exact ⟨.refl d, hthere⟩
    · cases h

theorem makeFolders_of_isFolder {rs : List Route} (h : ∀ r ∈ rs.head?, d.isFolder r) :
    d.makeFolders rs = (.ok (), d) := by
  cases rs with
  | nil => rfl
  | cons r above => rw [makeFolders, ensureFolder_of_isFolder (h r rfl)]

theorem makeFolders_eq_ok {rs : List Route} (h : d.makeFolders rs = (.ok (), d')) :
    d.Extends d' ∧ ∀ r ∈ rs.head?, d'.isFolder r := by
  induction rs generalizing d d' with
  | nil =>
    cases h
    exact ⟨.refl d, by simp⟩
  | cons r above ih =>
    have hhead {d₁ : Disk} (hr : d₁.isFolder r) : ∀ q ∈ (r :: above).head?, d₁.isFolder q := by
      simpa using hr
    rw [makeFolders] at h
    split at h
    · rename_i hensure
      cases h
      obtain ⟨hextends, hr⟩ := ensureFolder_eq_ok hensure
      exact ⟨hextends, hhead hr⟩
    · split at h
      · cases h
      · rename_i habove
        split at h
        · rename_i hensure
          cases h
          obtain ⟨hextends, hr⟩ := ensureFolder_eq_ok hensure
          exact ⟨(ih habove).1.trans hextends, hhead hr⟩
        · cases h
    · cases h

theorem prefix_of_foldlM_step {parts : List String} (hup : ".." ∉ parts)
    (h : parts.foldlM d.step way = .ok way') : way <+: way' := by
  induction parts generalizing way with
  | nil =>
    cases h
    exact List.prefix_rfl
  | cons part parts ih =>
    rw [List.mem_cons, not_or] at hup
    obtain ⟨w, hstep, hrest⟩ := foldlM_step_cons.mp h
    refine List.IsPrefix.trans ?_ (ih hup.2 hrest)
    obtain ⟨-, hleads⟩ := step_eq_ok.mp hstep
    cases hleads with
    | idle => exact List.prefix_rfl
    | up => exact absurd rfl hup.1
    | down => exact List.prefix_append _ _

theorem isSome_kindAt_of_prefix (h : way <+: way') (hthere : (d.kindAt way').isSome) :
    (d.kindAt way).isSome := by
  obtain ⟨rest, rfl⟩ := h
  by_cases hfolder : d.kindAt way = some .folder
  · rw [hfolder]
    rfl
  · cases rest with
    | nil => rwa [List.append_nil] at hthere
    | cons name rest =>
      have hnone : d.kindAt (way ++ name :: rest) = none :=
        FileTree.kindAt_append_of_ne hfolder (by simp)
      rw [hnone] at hthere
      cases hthere

theorem isSome_kindAt_of_locate (h : d.locate r = .ok way) : (d.kindAt way).isSome := by
  obtain ⟨-, hrun⟩ := walk_eq_ok.mp h
  rcases List.eq_nil_or_concat r.parts with hnil | ⟨parts, part, hparts⟩
  · exact absurd (List.map_eq_nil_iff.mp hnil) (Text.split_ne_nil _ _)
  · rw [hparts, List.concat_eq_append] at hrun
    obtain ⟨w, -, hlast⟩ := foldlM_step_append.mp hrun
    obtain ⟨w', hstep, hend⟩ := foldlM_step_cons.mp hlast
    cases hend
    obtain ⟨hfolder, hleads⟩ := step_eq_ok.mp hstep
    have hw : (d.kindAt w).isSome := by rw [hfolder]; rfl
    cases hleads with
    | idle => exact hw
    | up => exact isSome_kindAt_of_prefix (List.dropLast_prefix w) hw
    | down _ _ hthere => exact hthere

theorem has_iff : d.has r ↔ ∃ way, d.locate r = .ok way := by
  constructor
  · intro h
    obtain ⟨t, ht⟩ := Option.isSome_iff_exists.mp h
    obtain ⟨way, hway, -⟩ := find?_eq_some.mp ht
    exact ⟨way, hway⟩
  · rintro ⟨way, hway⟩
    obtain ⟨k, hk⟩ := Option.isSome_iff_exists.mp (isSome_kindAt_of_locate hway)
    obtain ⟨t, ht, -⟩ := Option.map_eq_some_iff.mp hk
    exact Option.isSome_iff_exists.mpr ⟨t, find?_eq_some.mpr ⟨way, hway, ht⟩⟩

theorem Extends.kindAt_of_isSome (h : d.Extends d') (hthere : (d.kindAt way).isSome) :
    d'.kindAt way = d.kindAt way := by
  rcases h.kindAt way with hsame | ⟨hnone, -⟩
  · exact hsame
  · rw [hnone] at hthere
    cases hthere

/-- Where a route without steps up leads after folders have been made, it led before, if something
was there. -/
theorem Extends.foldlM_step {parts : List String} (h : d.Extends d') (hup : ".." ∉ parts)
    (hrun : parts.foldlM d'.step way = .ok way') (hthere : (d.kindAt way').isSome) :
    parts.foldlM d.step way = .ok way' := by
  induction parts generalizing way with
  | nil => exact hrun
  | cons part parts ih =>
    have hway := isSome_kindAt_of_prefix (prefix_of_foldlM_step hup hrun) hthere
    obtain ⟨w, hstep, hrest⟩ := foldlM_step_cons.mp hrun
    rw [List.mem_cons, not_or] at hup
    have hw := isSome_kindAt_of_prefix (prefix_of_foldlM_step hup.2 hrest) hthere
    obtain ⟨hfolder, hleads⟩ := step_eq_ok.mp hstep
    rw [h.kindAt_of_isSome hway] at hfolder
    refine foldlM_step_cons.mpr ⟨w, step_eq_ok.mpr ⟨hfolder, ?_⟩, ih hup.2 hrest⟩
    cases hleads with
    | idle hidle => exact .idle hidle
    | up hidle => exact .up hidle
    | down hname hsize _ => exact .down hname hsize hw

theorem Extends.locate_eq (h : d.Extends d') (hup : ".." ∉ r.parts)
    (hlocate : d'.locate r = .ok way) (hthere : (d.kindAt way).isSome) :
    d.locate r = .ok way := by
  obtain ⟨hfault, hrun⟩ := walk_eq_ok.mp hlocate
  rw [h.base] at hrun
  exact walk_eq_ok.mpr ⟨hfault, h.foldlM_step hup hrun hthere⟩

end Clientele.Disk
