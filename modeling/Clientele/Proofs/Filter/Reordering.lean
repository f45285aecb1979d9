import Clientele.Proofs.Filter.Leniency

/-!
The order of the keys and of the items in a filter does not matter. Filters that differ in it are
read and compiled alike, or refused alike, and what they are compiled to holds of the same
documents.
-/
set_option autoImplicit false

namespace Clientele.Filter

/-- Operator objects that differ in the order of their keys, at any depth. -/
inductive ReordersOperators : Json → Json → Prop
  | same (v : Json) : ReordersOperators v v
  | keys {entries entries' : List (String × Json)} (h : entries.Perm entries') :
      ReordersOperators (.obj entries) (.obj entries')
  | under (before after : List (String × Json)) {key : String} {v w : Json}
      (hkey : Operator.ofName? key = none) (h : ReordersOperators v w) :
      ReordersOperators (.obj (before ++ (key, v) :: after)) (.obj (before ++ (key, w) :: after))
  | trans {u v w : Json} (h : ReordersOperators u v) (h' : ReordersOperators v w) :
      ReordersOperators u w

/-- Filters that differ in the order of their keys, of the keys of their operator objects and of the
items under `and` and `or`, at any depth. -/
inductive Reorders : Json → Json → Prop
  | same (v : Json) : Reorders v v
  | keys {entries entries' : List (String × Json)} (h : entries.Perm entries') :
      Reorders (.obj entries) (.obj entries')
  | items (before after : List (String × Json)) {key : String} {c : Connective}
      {items items' : List Json} (hkey : Connective.ofName? key = some c) (h : items.Perm items') :
      Reorders (.obj (before ++ (key, .arr items) :: after)) (.obj (before ++ (key, .arr items') :: after))
  | under (before after : List (String × Json)) {key : String} {v w : Json}
      (hkey : Connective.ofName? key = none) (h : ReordersOperators v w) :
      Reorders (.obj (before ++ (key, v) :: after)) (.obj (before ++ (key, w) :: after))
  | item (before after : List (String × Json)) {key : String} {c : Connective}
      (first last : List Json) {v w : Json} (hkey : Connective.ofName? key = some c)
      (h : Reorders v w) :
      Reorders (.obj (before ++ (key, .arr (first ++ v :: last)) :: after))
        (.obj (before ++ (key, .arr (first ++ w :: last)) :: after))
  | trans {u v w : Json} (h : Reorders u v) (h' : Reorders v w) : Reorders u w

theorem isFilter_obj_iff {entries : List (String × Json)} :
    IsFilter (.obj entries) ↔ ∀ e ∈ entries, IsEntry e.1 e.2 := by
  constructor
  · rintro ⟨⟩
    assumption
  · exact .obj

theorem isEntry_list_iff {key : String} {c : Connective} (hkey : Connective.ofName? key = some c)
    {items : List Json} : IsEntry key (.arr items) ↔ ∀ v ∈ items, IsFilter v := by
  constructor
  · intro h
    cases h with
    | list _ _ each => exact each
    | field hnone => cases hkey.symm.trans hnone
  · exact .list c hkey

theorem isEntry_field_iff {key : String} {v : Json} (hkey : Connective.ofName? key = none) :
    IsEntry key v ↔ IsOperators v := by
  constructor
  · intro h
    cases h with
    | list _ hsome => cases hkey.symm.trans hsome
    | field _ h => exact h
  · exact .field hkey

theorem ReordersOperators.isOperators_iff {v w : Json} (h : ReordersOperators v w) :
    IsOperators v ↔ IsOperators w := by
  induction h with
  | same => rfl
  | keys h =>
    rw [isOperators_obj_iff, isOperators_obj_iff]
    exact forall_congr' fun e => imp_congr_left h.mem_iff
  | under before after hkey _ ih =>
    simp only [isOperators_obj_iff, List.forall_mem_append, List.forall_mem_cons, hkey, true_imp_iff, ih]
  | trans _ _ ih ih' => exact ih.trans ih'

theorem Reorders.isFilter_iff {v w : Json} (h : Reorders v w) : IsFilter v ↔ IsFilter w := by
  induction h with
  | same => rfl
  | keys h =>
    rw [isFilter_obj_iff, isFilter_obj_iff]
    exact forall_congr' fun e => imp_congr_left h.mem_iff
  | items before after hkey h =>
    simp only [isFilter_obj_iff, List.forall_mem_append, List.forall_mem_cons, isEntry_list_iff hkey,
      h.mem_iff]
  | under before after hkey h =>
    simp only [isFilter_obj_iff, List.forall_mem_append, List.forall_mem_cons, isEntry_field_iff hkey,
      h.isOperators_iff]
  | item before after first last hkey _ ih =>
    simp only [isFilter_obj_iff, List.forall_mem_append, List.forall_mem_cons, isEntry_list_iff hkey, ih]
  | trans _ _ ih ih' => exact ih.trans ih'

def askedOperator (keys : List String) (e : String × Json) : List Leaf :=
  match Operator.ofName? e.1 with
  | some op => [⟨.ofKeys keys, op, e.2⟩]
  | none => askedField (keys ++ [e.1]) e.2

theorem askedOperators_eq_flatMap (keys : List String) (entries : List (String × Json)) :
    askedOperators keys entries = entries.flatMap (askedOperator keys) := by
  induction entries with
  | nil => rfl
  | cons e entries ih =>
    rw [List.flatMap_cons, ← ih]
    rfl

def askedEntry (e : String × Json) : List Leaf :=
  match Connective.ofName? e.1 with
  | some _ => askedList e.2
  | none => askedField [e.1] e.2

theorem askedEntries_eq_flatMap (entries : List (String × Json)) :
    askedEntries entries = entries.flatMap askedEntry := by
  induction entries with
  | nil => rfl
  | cons e entries ih =>
    rw [List.flatMap_cons, ← ih]
    rfl

theorem askedItems_eq_flatMap (items : List Json) : askedItems items = items.flatMap asked := by
  induction items with
  | nil => rfl
  | cons v items ih => rw [askedItems, ih, List.flatMap_cons]

theorem flatMap_perm_of_middle {α β : Type} (f : α → List β) (before after : List α) {a b : α}
    (h : (f a).Perm (f b)) :
    ((before ++ a :: after).flatMap f).Perm ((before ++ b :: after).flatMap f) := by
  simp only [List.flatMap_append, List.flatMap_cons]
  exact (h.append_right _).append_left _

theorem ReordersOperators.asked_perm {v w : Json} (h : ReordersOperators v w) (keys : List String) :
    (askedField keys v).Perm (askedField keys w) := by
  induction h generalizing keys with
  | same => exact .refl _
  | keys h =>
    rw [askedField, askedField, askedOperators_eq_flatMap, askedOperators_eq_flatMap]
    exact h.flatMap_right _
  | under before after hkey _ ih =>
    rw [askedField, askedField, askedOperators_eq_flatMap, askedOperators_eq_flatMap]
    refine flatMap_perm_of_middle _ before after ?_
    simp only [askedOperator, hkey]
    exact ih _
  | trans _ _ ih ih' => exact (ih keys).trans (ih' keys)

theorem Reorders.asked_perm {v w : Json} (h : Reorders v w) : (asked v).Perm (asked w) := by
  induction h with
  | same => exact .refl _
  | keys h =>
    rw [asked, asked, askedEntries_eq_flatMap, askedEntries_eq_flatMap]
    exact h.flatMap_right _
  | items before after hkey h =>
    rw [asked, asked, askedEntries_eq_flatMap, askedEntries_eq_flatMap]
    refine flatMap_perm_of_middle _ before after ?_
    simp only [askedEntry, hkey, askedList, askedItems_eq_flatMap]
    exact h.flatMap_right _
  | under before after hkey h =>
    rw [asked, asked, askedEntries_eq_flatMap, askedEntries_eq_flatMap]
    refine flatMap_perm_of_middle _ before after ?_
    simp only [askedEntry, hkey]
    exact h.asked_perm _
  | item before after first last hkey _ ih =>
    rw [asked, asked, askedEntries_eq_flatMap, askedEntries_eq_flatMap]
    refine flatMap_perm_of_middle _ before after ?_
    simp only [askedEntry, hkey, askedList, askedItems_eq_flatMap]
    exact flatMap_perm_of_middle _ first last ih
  | trans _ _ ih ih' => exact ih.trans ih'

theorem Verdict.combine_perm (c : Connective) {vs ws : List Verdict} (h : vs.Perm ws) :
    combine c vs = combine c ws := by
  have hsaid : (said vs).Perm (said ws) := h.filterMap id
  by_cases hnil : said vs = []
  · rw [combine_eq_none c hnil, combine_eq_none c (hnil ▸ hsaid).nil_eq.symm]
  · rw [combine_eq_some c hnil, combine_eq_some c fun h => hnil (h ▸ hsaid).eq_nil]
    cases c with
    | all => rw [hsaid.all_eq]
    | any => rw [hsaid.any_eq]

def operatorEntryVerdict (doc : Json) (field : Path) (e : String × Json) : Verdict :=
  match Operator.ofName? e.1 with
  | some op => operatorVerdict doc field op e.2
  | none => fieldVerdict doc (field.under e.1) e.2

theorem operatorVerdicts_eq_map (doc : Json) (field : Path) (entries : List (String × Json)) :
    operatorVerdicts doc field entries = entries.map (operatorEntryVerdict doc field) := by
  induction entries with
  | nil => rfl
  | cons e entries ih =>
    rw [List.map_cons, ← ih]
    rfl

def entryVerdict (doc : Json) (e : String × Json) : Verdict :=
  match Connective.ofName? e.1 with
  | some c => listVerdict doc c e.2
  | none => fieldVerdict doc (Path.ofText e.1) e.2

theorem entryVerdicts_eq_map (doc : Json) (entries : List (String × Json)) :
    entryVerdicts doc entries = entries.map (entryVerdict doc) := by
  induction entries with
  | nil => rfl
  | cons e entries ih =>
    rw [List.map_cons, ← ih]
    rfl

theorem itemVerdicts_eq_map (doc : Json) (items : List Json) :
    itemVerdicts doc items = items.map (verdict doc) := by
  induction items with
  | nil => rfl
  | cons v items ih => rw [itemVerdicts, ih, List.map_cons]

theorem map_eq_of_middle {α β : Type} (f : α → β) (before after : List α) {a b : α} (h : f a = f b) :
    (before ++ a :: after).map f = (before ++ b :: after).map f := by
  rw [List.map_append, List.map_cons, h, List.map_append, List.map_cons]

theorem ReordersOperators.verdict_eq {v w : Json} (h : ReordersOperators v w) (doc : Json) (field : Path) :
    fieldVerdict doc field v = fieldVerdict doc field w := by
  induction h generalizing field with
  | same => rfl
  | keys h =>
    rw [fieldVerdict, fieldVerdict, operatorVerdicts_eq_map, operatorVerdicts_eq_map]
    exact Verdict.combine_perm _ (h.map _)
  | under before after hkey _ ih =>
    rw [fieldVerdict, fieldVerdict, operatorVerdicts_eq_map, operatorVerdicts_eq_map]
    refine congrArg _ (map_eq_of_middle _ before after ?_)
    simp only [operatorEntryVerdict, hkey]
    exact ih _
  | trans _ _ ih ih' => exact (ih field).trans (ih' field)

theorem Reorders.verdict_eq {v w : Json} (h : Reorders v w) (doc : Json) : verdict doc v = verdict doc w := by
  induction h with
  | same => rfl
  | keys h =>
    rw [verdict, verdict, entryVerdicts_eq_map, entryVerdicts_eq_map]
    exact Verdict.combine_perm _ (h.map _)
  | items before after hkey h =>
    rw [verdict, verdict, entryVerdicts_eq_map, entryVerdicts_eq_map]
    refine congrArg _ (map_eq_of_middle _ before after ?_)
    simp only [entryVerdict, hkey, listVerdict, itemVerdicts_eq_map]
    exact Verdict.combine_perm _ (h.map _)
  | under before after hkey h =>
    rw [verdict, verdict, entryVerdicts_eq_map, entryVerdicts_eq_map]
    refine congrArg _ (map_eq_of_middle _ before after ?_)
    simp only [entryVerdict, hkey]
    exact h.verdict_eq doc _
  | item before after first last hkey _ ih =>
    rw [verdict, verdict, entryVerdicts_eq_map, entryVerdicts_eq_map]
    refine congrArg _ (map_eq_of_middle _ before after ?_)
    simp only [entryVerdict, hkey, listVerdict, itemVerdicts_eq_map]
    exact congrArg _ (map_eq_of_middle _ first last ih)
  | trans _ _ ih ih' => exact ih.trans ih'

def pruneOperator (e : String × Json) : Option (String × Json) :=
  match Operator.ofName? e.1, pruneBelow e.2 with
  | some _, _ => some e
  | none, some v => some (e.1, v)
  | none, none => none

theorem pruneOperators_eq_filterMap (entries : List (String × Json)) :
    pruneOperators entries = entries.filterMap pruneOperator := by
  induction entries with
  | nil => rfl
  | cons e entries ih =>
    obtain ⟨key, operand⟩ := e
    rw [pruneOperators, List.filterMap_cons, pruneOperator, ← ih]
    cases Operator.ofName? key <;> cases pruneBelow operand <;> rfl

theorem pruneEntries_eq_map (entries : List (String × Json)) :
    pruneEntries entries = entries.map fun e => (e.1, pruneEntry e.1 e.2) := by
  induction entries with
  | nil => rfl
  | cons e entries ih =>
    rw [List.map_cons, ← ih]
    rfl

theorem pruneItems_eq_map (items : List Json) : pruneItems items = items.map prune := by
  induction items with
  | nil => rfl
  | cons v items ih => rw [pruneItems, ih, List.map_cons]

theorem ReordersOperators.eq_or_obj {v w : Json} (h : ReordersOperators v w) :
    v = w ∨ ∃ entries entries', v = .obj entries ∧ w = .obj entries' := by
  induction h with
  | same => exact .inl rfl
  | keys | under => exact .inr ⟨_, _, rfl, rfl⟩
  | trans _ _ ih ih' =>
    rcases ih with rfl | ⟨entries, entries', rfl, rfl⟩
    · exact ih'
    · rcases ih' with rfl | ⟨_, _, -, rfl⟩ <;> exact .inr ⟨_, _, rfl, rfl⟩

theorem ReordersOperators.prune {v w : Json} (h : ReordersOperators v w) :
    ReordersOperators (pruneField v) (pruneField w) := by
  induction h with
  | same => exact .same _
  | keys h =>
    rw [pruneField, pruneField, pruneOperators_eq_filterMap, pruneOperators_eq_filterMap]
    exact .keys (h.filterMap _)
  | under before after hkey h ih =>
    rcases h.eq_or_obj with rfl | ⟨entries, entries', rfl, rfl⟩
    · exact .same _
    · simp only [pruneField, pruneOperators_eq_filterMap, List.filterMap_append, List.filterMap_cons,
        pruneOperator, hkey, pruneBelow] at ih ⊢
      exact .under _ _ hkey ih
  | trans _ _ ih ih' => exact ih.trans ih'

theorem Reorders.prune {v w : Json} (h : Reorders v w) :
    Reorders (Filter.prune v) (Filter.prune w) := by
  induction h with
  | same => exact .same _
  | keys h =>
    rw [Filter.prune, Filter.prune, pruneEntries_eq_map, pruneEntries_eq_map]
    exact .keys (h.map _)
  | items before after hkey h =>
    simp only [Filter.prune, pruneEntries_eq_map, List.map_append, List.map_cons, pruneEntry, hkey,
      pruneList, pruneItems_eq_map]
    exact .items _ _ hkey (h.map _)
  | under before after hkey h =>
    simp only [Filter.prune, pruneEntries_eq_map, List.map_append, List.map_cons, pruneEntry, hkey]
    exact .under _ _ hkey h.prune
  | item before after first last hkey _ ih =>
    simp only [Filter.prune, pruneEntries_eq_map, List.map_append, List.map_cons, pruneEntry, hkey,
      pruneList, pruneItems_eq_map]
    exact .item _ _ _ _ hkey ih
  | trans _ _ ih ih' => exact ih.trans ih'

def Leaf.Compiles (l : Leaf) : Prop := ∃ p, compileLeaf l.field l.operator l.operand = .ok p

namespace Tree

mutual

theorem compile_isOk_iff : ∀ t : Tree, (∃ p, compile t = .ok p) ↔ ∀ l ∈ t.leaves, l.Compiles
  | leaf field op operand => by
    rw [leaves, List.forall_mem_singleton]
    rfl
  | node c ts => by
    rw [leaves, ← compileAll_isOk_iff ts, compile]
    simp [Except.map_eq_ok_iff]

theorem compileAll_isOk_iff :
    ∀ ts : List Tree, (∃ ps, compileAll ts = .ok ps) ↔ ∀ l ∈ leavesAll ts, l.Compiles
  | [] => by simp [compileAll, leavesAll]
  | t :: ts => by
    rw [leavesAll, List.forall_mem_append, ← compile_isOk_iff t, ← compileAll_isOk_iff ts, compileAll]
    simp [Except.bind_eq_ok_iff, pure, Except.pure]

end

mutual

theorem leafCount_eq : ∀ t : Tree, t.leafCount = t.leaves.length
  | leaf .. => rfl
  | node c ts => by rw [leafCount, leaves, leafCountAll_eq ts]

theorem leafCountAll_eq : ∀ ts : List Tree, leafCountAll ts = (leavesAll ts).length
  | [] => rfl
  | t :: ts => by rw [leafCountAll, leavesAll, List.length_append, leafCount_eq t, leafCountAll_eq ts]

end

end Tree

theorem exists_read_iff {v : Json} : (∃ t, (read .strict v).outcome = .ok t) ↔ IsFilter v :=
  ⟨fun ⟨_, ht⟩ => (read_sound v ht).1, IsFilter.exists_read⟩

theorem Tree.Show.eq_none_iff {t : Option Tree} {ls : List Leaf} (h : Show t.toList ls) :
    t = none ↔ ls = [] := by
  rw [← h.leaves]
  cases t with
  | none => exact iff_of_true rfl rfl
  | some t =>
    have hproper : t.IsProper := h.proper t (by simp)
    rw [Option.toList_some, leavesAll_singleton]
    exact iff_of_false nofun hproper.leaves_ne_nil

theorem read_eq_none_iff {v : Json} :
    (read .strict v).outcome = .ok none ↔ IsFilter v ∧ asked v = [] := by
  constructor
  · intro h
    obtain ⟨hfilter, hshow⟩ := read_sound v h
    exact ⟨hfilter, hshow.eq_none_iff.mp rfl⟩
  · rintro ⟨hfilter, hasked⟩
    obtain ⟨t, ht⟩ := hfilter.exists_read
    obtain rfl := (read_sound v ht).2.eq_none_iff.mpr hasked
    exact ht

theorem compileOptional_isOk_iff (t : Option Tree) :
    (∃ p, compileOptional t = .ok p) ↔ ∀ l ∈ Tree.leavesAll t.toList, l.Compiles := by
  cases t with
  | none => simp [compileOptional, Tree.leavesAll]
  | some t => rw [Option.toList_some, Tree.leavesAll_singleton, ← t.compile_isOk_iff, compileOptional]

theorem exists_compiled_iff {v : Json} :
    (∃ p, (read .strict v).outcome.bind compileOptional = .ok p) ↔
      IsFilter v ∧ ∀ l ∈ asked v, l.Compiles := by
  constructor
  · rintro ⟨p, hp⟩
    obtain ⟨t, ht, hcompile⟩ := Except.bind_eq_ok_iff.mp hp
    obtain ⟨hfilter, hshow⟩ := read_sound v ht
    exact ⟨hfilter, hshow.leaves ▸ (compileOptional_isOk_iff t).mp ⟨p, hcompile⟩⟩
  · rintro ⟨hfilter, hcompiles⟩
    obtain ⟨t, ht⟩ := hfilter.exists_read
    rw [← (read_sound v ht).2.leaves] at hcompiles
    obtain ⟨p, hp⟩ := (compileOptional_isOk_iff t).mpr hcompiles
    exact ⟨p, Except.bind_eq_ok_iff.mpr ⟨t, ht, hp⟩⟩

theorem compiled_verdict {policy : Policy} {v : Json} {p : Predicate}
    (h : (read policy v).outcome.bind compileOptional = .ok p) (doc : Json) :
    p.verdict doc = verdict doc v := by
  obtain ⟨t, ht, hcompile⟩ := Except.bind_eq_ok_iff.mp h
  rw [← read_verdict doc v ht]
  cases t with
  | none =>
    cases hcompile
    rfl
  | some t => exact compile_verdict doc t hcompile

theorem Predicate.eq_of_verdict_eq {p q : Predicate} {doc : Json} (h : p.verdict doc = q.verdict doc) :
    p.isAlways = q.isAlways ∧ p.holds doc = q.holds doc := by
  unfold verdict at h
  cases hp : p.isAlways <;> cases hq : q.isAlways <;> simp only [hp, hq] at h
  · exact ⟨rfl, Option.some.inj h⟩
  · cases h
  · cases h
  · rw [Predicate.eq_always hp, Predicate.eq_always hq]
    exact ⟨rfl, rfl⟩

/-- Two outcomes of reading that nothing tells apart but the order in the trees and the failures. -/
structure ReadAlike (r s : Except Error (Option Tree)) : Prop where
  read : (∃ t, r = .ok t) ↔ ∃ u, s = .ok u
  compiled : (∃ p, r.bind compileOptional = .ok p) ↔ ∃ q, s.bind compileOptional = .ok q
  empty : r = .ok none ↔ s = .ok none
  leaves : ∀ t u, r = .ok (some t) → s = .ok (some u) → t.leafCount = u.leafCount
  always : ∀ p q, r.bind compileOptional = .ok p → s.bind compileOptional = .ok q →
    p.isAlways = q.isAlways
  holds : ∀ p q, r.bind compileOptional = .ok p → s.bind compileOptional = .ok q →
    ∀ doc, p.holds doc = q.holds doc

theorem Reorders.readAlike {v w : Json} (h : Reorders v w) :
    ReadAlike (Filter.read .strict v).outcome (Filter.read .strict w).outcome := by
  have hasked := h.asked_perm
  have hverdict {p q : Predicate} (hp : (Filter.read .strict v).outcome.bind compileOptional = .ok p)
      (hq : (Filter.read .strict w).outcome.bind compileOptional = .ok q) (doc : Json) :
      p.isAlways = q.isAlways ∧ p.holds doc = q.holds doc := by
    refine Predicate.eq_of_verdict_eq ?_
    rw [compiled_verdict hp, compiled_verdict hq, h.verdict_eq]
  refine ⟨?_, ?_, ?_, fun t u ht hu => ?_, fun p q hp hq => (hverdict hp hq .null).1,
    fun p q hp hq doc => (hverdict hp hq doc).2⟩
  · rw [exists_read_iff, exists_read_iff, h.isFilter_iff]
  · rw [exists_compiled_iff, exists_compiled_iff, h.isFilter_iff]
    exact and_congr_right fun _ => forall_congr' fun l => imp_congr_left hasked.mem_iff
  · rw [read_eq_none_iff, read_eq_none_iff, h.isFilter_iff]
    exact and_congr_right fun _ =>
      ⟨fun hnil => (hnil ▸ hasked).nil_eq.symm, fun hnil => (hnil ▸ hasked).eq_nil⟩
  · have hleaves {x : Json} {t : Tree} (ht : (Filter.read .strict x).outcome = .ok (some t)) :
        t.leafCount = (asked x).length := by
      rw [t.leafCount_eq, ← (read_sound x ht).2.leaves, Option.toList_some, Tree.leavesAll_singleton]
    rw [hleaves ht, hleaves hu, hasked.length_eq]

/-- Filters that differ only in the order of their keys and items, at any depth, are read and
compiled alike or refused alike, under either policy. They have as many leaves and set a condition
or none alike, and what they are compiled to holds of the same documents. -/
theorem read_reordered {v w : Json} (h : Reorders v w) (policy : Policy) :
    ReadAlike (read policy v).outcome (read policy w).outcome := by
  cases policy with
  | strict => exact h.readAlike
  | lenient =>
    rw [read_prune, read_prune]
    exact h.prune.readAlike

/-- The items of a list, the operators of a field and the two keys of a filter change places. One of
the operators is not known. -/
theorem read_reordered_deals :
    let stage : Json := .obj [("stage", .obj [("eq", .str "NEW"), ("near", .str "a")])]
    let value : Json := .obj [("value", .obj [("gt", .ofNat 5)])]
    let v : Json := .obj [("or", .arr [stage, value]),
      ("title", .obj [("eq", .str "x"), ("neq", .str "y")])]
    let w : Json := .obj [("title", .obj [("neq", .str "y"), ("eq", .str "x")]),
      ("or", .arr [value, stage])]
    Reorders v w ∧
      ∃ p q, (read .lenient v).outcome.bind compileOptional = .ok p ∧
        (read .lenient w).outcome.bind compileOptional = .ok q ∧
        p.isAlways = q.isAlways ∧ ∀ doc, p.holds doc = q.holds doc := by
  intro stage value v w
  have hitems : Reorders v (.obj [("or", .arr [value, stage]),
      ("title", .obj [("eq", .str "x"), ("neq", .str "y")])]) :=
    .items [] _ rfl (.swap value stage [])
  have hoperators : Reorders (.obj [("or", .arr [value, stage]),
      ("title", .obj [("eq", .str "x"), ("neq", .str "y")])]) (.obj [("or", .arr [value, stage]),
      ("title", .obj [("neq", .str "y"), ("eq", .str "x")])]) :=
    .under [("or", .arr [value, stage])] [] rfl (.keys (.swap _ _ []))
  have hreorders : Reorders v w := (hitems.trans hoperators).trans (.keys (.swap _ _ []))
  have halike := read_reordered hreorders .lenient
  have hnear : Operator.ofName? "near" = none := rfl
  have hcompiled : ∃ p, (read .lenient v).outcome.bind compileOptional = .ok p := by
    simp only [v, stage, value, Json.ofNat, read, readEntries, readList, readItems, readField,
      readOperators, hnear]
    exact ⟨_, rfl⟩
  obtain ⟨p, hp⟩ := hcompiled
  obtain ⟨q, hq⟩ := halike.compiled.mp ⟨p, hp⟩
  exact ⟨hreorders, p, q, hp, hq, halike.always p q hp hq, halike.holds p q hp hq⟩

end Clientele.Filter
