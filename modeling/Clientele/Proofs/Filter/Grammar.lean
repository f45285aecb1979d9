import Clientele.Proofs.Filter.Wire
import Clientele.Proofs.Text.Lines

/-!
Which filters are read when no unknown operator is let pass, and what is read of them. The leaves of
the tree are the operators of the filter in the order they were sent in, each at the field that the
keys above it spell, and a key may be written as part of the key above it.
-/
set_option autoImplicit false

namespace Clientele

def Path.ofKeys (keys : List String) : Path := .ofText (Text.joinText '.' keys)

theorem Path.ofKeys_singleton (key : String) : ofKeys [key] = ofText key := by
  simp [ofKeys, Text.joinText, Text.join]

theorem Path.ofKeys_concat {keys : List String} (h : keys ≠ []) (key : String) :
    ofKeys (keys ++ [key]) = (ofKeys keys).under key := by
  have hne : keys.map String.toList ≠ [] := by simpa using h
  simp [ofKeys, ofText, under, Text.splitText, Text.joinText, Text.join_concat '.' hne,
    Text.split_append_sep]

theorem Path.ofText_dotted (f g : String) : ofText (f ++ "." ++ g) = (ofText f).under g := by
  have htext : (f ++ "." ++ g).toList = f.toList ++ '.' :: g.toList := by simp
  simp only [ofText, under, Text.splitText, htext, Text.split_append_sep, List.map_append]

theorem Path.under_dotted (p : Path) (f g : String) :
    p.under (f ++ "." ++ g) = (p.under f).under g := by
  have h := congrArg Path.segments (ofText_dotted f g)
  simp only [ofText, under] at h
  simp only [under, h, List.append_assoc]

namespace Filter

theorem Connective.ofName?_dotted (f g : String) : ofName? (f ++ "." ++ g) = none := by
  have hdot : '.' ∈ (f ++ "." ++ g).toList := by simp
  have hall : f ++ "." ++ g ≠ "and" := fun h => by rw [h] at hdot; simp at hdot
  have hany : f ++ "." ++ g ≠ "or" := fun h => by rw [h] at hdot; simp at hdot
  rw [ofName?, if_neg hall, if_neg hany]

theorem Operator.ofName?_dotted (f g : String) : ofName? (f ++ "." ++ g) = none := by
  have hdot : '.' ∈ (f ++ "." ++ g).toList := by simp
  have hall : ∀ op ∈ all, '.' ∉ op.name.toList := by decide
  refine List.find?_eq_none.mpr fun op hop h => hall op hop ?_
  rwa [eq_of_beq h]

/-- An object of operators: under the name of an operator stands any operand, under every other key
another such object. -/
inductive IsOperators : Json → Prop
  | obj {entries : List (String × Json)}
      (below : ∀ e ∈ entries, Operator.ofName? e.1 = none → IsOperators e.2) :
      IsOperators (.obj entries)

mutual

/-- Null, or an object of entries. -/
inductive IsFilter : Json → Prop
  | null : IsFilter .null
  | obj {entries : List (String × Json)} (each : ∀ e ∈ entries, IsEntry e.1 e.2) :
      IsFilter (.obj entries)

/-- A list of filters under `and` and `or`, operators under every other key. -/
inductive IsEntry : String → Json → Prop
  | list {key : String} {items : List Json} (c : Connective)
      (hkey : Connective.ofName? key = some c) (each : ∀ v ∈ items, IsFilter v) :
      IsEntry key (.arr items)
  | field {key : String} {v : Json} (hkey : Connective.ofName? key = none) (h : IsOperators v) :
      IsEntry key v

end

theorem isOperators_obj_iff {entries : List (String × Json)} :
    IsOperators (.obj entries) ↔
      ∀ e ∈ entries, Operator.ofName? e.1 = none → IsOperators e.2 := by
  constructor
  · rintro ⟨below⟩
    exact below
  · exact .obj

structure Leaf where
  field : Path
  operator : Operator
  operand : Json

def Leaf.tree (l : Leaf) : Tree := .leaf l.field l.operator l.operand

namespace Tree

mutual

def leaves : Tree → List Leaf
  | leaf field operator operand => [⟨field, operator, operand⟩]
  | node _ ts => leavesAll ts

def leavesAll : List Tree → List Leaf
  | [] => []
  | t :: ts => leaves t ++ leavesAll ts

end

/-- Every combination in the tree has something that it combines. -/
inductive IsProper : Tree → Prop
  | leaf (field : Path) (operator : Operator) (operand : Json) :
      IsProper (leaf field operator operand)
  | node (c : Connective) {children : List Tree} (some : children ≠ [])
      (each : ∀ t ∈ children, IsProper t) : IsProper (node c children)

theorem leavesAll_append (ts us : List Tree) :
    leavesAll (ts ++ us) = leavesAll ts ++ leavesAll us := by
  induction ts with
  | nil => rfl
  | cons t ts ih => rw [List.cons_append, leavesAll, ih, leavesAll, List.append_assoc]

theorem leavesAll_singleton (t : Tree) : leavesAll [t] = t.leaves := List.append_nil _

theorem leavesAll_map_tree (ls : List Leaf) : leavesAll (ls.map Leaf.tree) = ls := by
  induction ls with
  | nil => rfl
  | cons l ls ih => rw [List.map_cons, leavesAll, ih]; rfl

theorem IsProper.leaves_ne_nil {t : Tree} (h : t.IsProper) : t.leaves ≠ [] := by
  induction h with
  | leaf => exact List.cons_ne_nil _ _
  | @node c children hne _ ih =>
    obtain ⟨t, ts, rfl⟩ := List.exists_cons_of_ne_nil hne
    exact fun h => ih t List.mem_cons_self (List.append_eq_nil_iff.mp h).1

/-- Proper trees with these leaves. -/
structure Show (ts : List Tree) (ls : List Leaf) : Prop where
  leaves : leavesAll ts = ls
  proper : ∀ t ∈ ts, t.IsProper

namespace Show

variable {ts us : List Tree} {ls ms : List Leaf}

theorem nil : Show [] [] := ⟨rfl, by simp⟩

theorem append (h : Show ts ls) (h' : Show us ms) : Show (ts ++ us) (ls ++ ms) where
  leaves := by rw [leavesAll_append, h.leaves, h'.leaves]
  proper t ht := (List.mem_append.mp ht).elim (h.proper t) (h'.proper t)

theorem map_tree (ls : List Leaf) : Show (ls.map Leaf.tree) ls where
  leaves := leavesAll_map_tree ls
  proper := by
    intro t ht
    obtain ⟨l, -, rfl⟩ := List.mem_map.mp ht
    exact .leaf ..

theorem node (c : Connective) (hne : ts ≠ []) (h : Show ts ls) : Show [.node c ts] ls where
  leaves := by rw [leavesAll_singleton, Tree.leaves, h.leaves]
  proper := by simpa using .node c hne h.proper

theorem combine (c : Connective) (h : Show ts ls) : Show (Tree.combine c ts).toList ls := by
  cases ts with
  | nil => exact h
  | cons t ts => exact h.node c (List.cons_ne_nil t ts)

theorem conjunction (h : Show ts ls) : Show (Tree.conjunction ts).toList ls := by
  match ts, h with
  | [], h | [_], h => exact h
  | _ :: _ :: _, h => exact h.node .all (List.cons_ne_nil _ _)

end Show

end Tree

mutual

def askedField (keys : List String) : Json → List Leaf
  | .obj entries => askedOperators keys entries
  | _ => []

def askedOperators (keys : List String) : List (String × Json) → List Leaf
  | [] => []
  | (key, operand) :: rest =>
    (match Operator.ofName? key with
      | some op => [⟨.ofKeys keys, op, operand⟩]
      | none => askedField (keys ++ [key]) operand) ++ askedOperators keys rest

end

mutual

/-- The operators of a filter, in the order they were sent in. -/
def asked : Json → List Leaf
  | .obj entries => askedEntries entries
  | _ => []

def askedEntries : List (String × Json) → List Leaf
  | [] => []
  | (key, v) :: rest =>
    (match Connective.ofName? key with
      | some _ => askedList v
      | none => askedField [key] v) ++ askedEntries rest

def askedList : Json → List Leaf
  | .arr items => askedItems items
  | _ => []

def askedItems : List Json → List Leaf
  | [] => []
  | v :: vs => asked v ++ askedItems vs

end

theorem Reading.outcome_append_eq_ok_iff {α : Type} {r s : Reading (List α)} {ts : List α} :
    (r.bind fun us => s.map (us ++ ·)).outcome = .ok ts ↔
      ∃ us ws, r.outcome = .ok us ∧ s.outcome = .ok ws ∧ us ++ ws = ts := by
  simp [outcome_bind_eq_ok_iff, outcome_map_eq_ok_iff]

def readOperator (policy : Policy) (field : Path) (key : String) (operand : Json) :
    Reading (List Tree) :=
  match Operator.ofName? key with
  | some op => .pure [.leaf field op operand]
  | none =>
    match operand with
    | .obj entries => readOperators policy (field.under key) entries
    | _ => unknownOperator policy field key

def readEntry (policy : Policy) (key : String) (v : Json) : Reading (List Tree) :=
  match Connective.ofName? key with
  | some c => (readList policy c v).map fun ts => (Tree.combine c ts).toList
  | none => readField policy (.ofText key) v

theorem readOperators_cons (policy : Policy) (field : Path) (key : String) (operand : Json)
    (rest : List (String × Json)) :
    readOperators policy field ((key, operand) :: rest) =
      (readOperator policy field key operand).bind fun ts =>
        (readOperators policy field rest).map (ts ++ ·) := by
  cases hkey : Operator.ofName? key <;> cases operand <;>
    simp only [readOperators, readOperator, hkey]

theorem readEntries_cons (policy : Policy) (key : String) (v : Json)
    (rest : List (String × Json)) :
    readEntries policy ((key, v) :: rest) =
      (readEntry policy key v).bind fun ts => (readEntries policy rest).map (ts ++ ·) := by
  cases hkey : Connective.ofName? key <;> simp only [readEntries, readEntry, hkey]

theorem readOperator_eq_ok_iff {field : Path} {key : String} {operand : Json} {ts : List Tree}
    (hkey : Operator.ofName? key = none) :
    (readOperator .strict field key operand).outcome = .ok ts ↔
      (readField .strict (field.under key) operand).outcome = .ok ts := by
  cases operand <;>
    simp [readOperator, hkey, readField, unknownOperator, Reading.fail]

mutual

theorem readField_eq_ok_iff {keys : List String} (hkeys : keys ≠ []) :
    ∀ (v : Json) {ts : List Tree}, (readField .strict (.ofKeys keys) v).outcome = .ok ts ↔
      IsOperators v ∧ ts = (askedField keys v).map Leaf.tree
  | .obj entries, _ => by
    rw [readField, readOperators_eq_ok_iff hkeys entries, isOperators_obj_iff, askedField]
  | .null, _ | .bool _, _ | .num _, _ | .str _, _ | .arr _, _ => by
    simp only [readField, Reading.fail, reduceCtorEq, false_iff]
    rintro ⟨⟨⟩, -⟩

theorem readOperators_eq_ok_iff {keys : List String} (hkeys : keys ≠ []) :
    ∀ (entries : List (String × Json)) {ts : List Tree},
      (readOperators .strict (.ofKeys keys) entries).outcome = .ok ts ↔
        (∀ e ∈ entries, Operator.ofName? e.1 = none → IsOperators e.2) ∧
          ts = (askedOperators keys entries).map Leaf.tree
  | [], _ => by simp [readOperators, Reading.pure, askedOperators, eq_comm]
  | (key, operand) :: rest, _ => by
    rw [readOperators_cons, Reading.outcome_append_eq_ok_iff, List.forall_mem_cons, askedOperators,
      List.map_append]
    simp only [readOperators_eq_ok_iff hkeys rest]
    cases hkey : Operator.ofName? key with
    | some op =>
      simp [readOperator, hkey, Reading.pure, Leaf.tree, eq_comm]
    | none =>
      have hbelow (us : List Tree) :
          (readField .strict ((Path.ofKeys keys).under key) operand).outcome = .ok us ↔
            IsOperators operand ∧ us = (askedField (keys ++ [key]) operand).map Leaf.tree := by
        rw [← Path.ofKeys_concat hkeys]
        exact readField_eq_ok_iff (by simp) operand
      simp only [readOperator_eq_ok_iff hkey, hbelow]
      constructor
      · rintro ⟨_, _, ⟨h, rfl⟩, ⟨hrest, rfl⟩, rfl⟩
        exact ⟨⟨fun _ => h, hrest⟩, rfl⟩
      · rintro ⟨⟨h, hrest⟩, rfl⟩
        exact ⟨_, _, ⟨h trivial, rfl⟩, ⟨hrest, rfl⟩, rfl⟩

end

mutual

/-- Only filters are read, and what is read shows what they ask. -/
theorem read_sound :
    ∀ (v : Json) {t : Option Tree}, (read .strict v).outcome = .ok t →
      IsFilter v ∧ Tree.Show t.toList (asked v)
  | .null, _, h => by
    simp only [read, Reading.pure, Except.ok.injEq] at h
    subst h
    exact ⟨.null, .nil⟩
  | .obj entries, _, h => by
    rw [read] at h
    obtain ⟨ts, hts, rfl⟩ := Reading.outcome_map_eq_ok_iff.mp h
    obtain ⟨heach, hshow⟩ := readEntries_sound entries hts
    exact ⟨.obj heach, hshow.conjunction⟩
  | .bool _, _, h | .num _, _, h | .str _, _, h | .arr _, _, h => by
    simp [read, Reading.fail] at h

theorem readEntries_sound :
    ∀ (entries : List (String × Json)) {ts : List Tree},
      (readEntries .strict entries).outcome = .ok ts →
      (∀ e ∈ entries, IsEntry e.1 e.2) ∧ Tree.Show ts (askedEntries entries)
  | [], _, h => by
    simp only [readEntries, Reading.pure, Except.ok.injEq] at h
    subst h
    exact ⟨by simp, .nil⟩
  | (key, v) :: rest, _, h => by
    rw [readEntries_cons] at h
    obtain ⟨us, ws, hus, hws, rfl⟩ := Reading.outcome_append_eq_ok_iff.mp h
    obtain ⟨hrest, hshow⟩ := readEntries_sound rest hws
    rw [List.forall_mem_cons, askedEntries]
    unfold readEntry at hus
    cases hkey : Connective.ofName? key with
    | some c =>
      simp only [hkey] at hus
      obtain ⟨ts, hts, rfl⟩ := Reading.outcome_map_eq_ok_iff.mp hus
      obtain ⟨items, rfl, heach, hlist⟩ := readList_sound c v hts
      exact ⟨⟨.list c hkey heach, hrest⟩, (hlist.combine c).append hshow⟩
    | none =>
      simp only [hkey] at hus
      rw [← Path.ofKeys_singleton, readField_eq_ok_iff (List.cons_ne_nil _ _)] at hus
      obtain ⟨hv, rfl⟩ := hus
      exact ⟨⟨.field hkey hv, hrest⟩, (Tree.Show.map_tree _).append hshow⟩

theorem readList_sound (c : Connective) :
    ∀ (v : Json) {ts : List Tree}, (readList .strict c v).outcome = .ok ts →
      ∃ items, v = .arr items ∧ (∀ w ∈ items, IsFilter w) ∧ Tree.Show ts (askedList v)
  | .arr items, _, h => by
    rw [readList] at h
    exact ⟨items, rfl, readItems_sound items h⟩
  | .null, _, h | .bool _, _, h | .num _, _, h | .str _, _, h | .obj _, _, h => by
    simp [readList, Reading.fail] at h

theorem readItems_sound :
    ∀ (items : List Json) {ts : List Tree}, (readItems .strict items).outcome = .ok ts →
      (∀ v ∈ items, IsFilter v) ∧ Tree.Show ts (askedItems items)
  | [], _, h => by
    simp only [readItems, Reading.pure, Except.ok.injEq] at h
    subst h
    exact ⟨by simp, .nil⟩
  | v :: vs, _, h => by
    rw [readItems] at h
    obtain ⟨t, ht, h⟩ := Reading.outcome_bind_eq_ok_iff.mp h
    obtain ⟨us, hus, rfl⟩ := Reading.outcome_map_eq_ok_iff.mp h
    obtain ⟨hv, hshow⟩ := read_sound v ht
    obtain ⟨hvs, hshows⟩ := readItems_sound vs hus
    exact ⟨List.forall_mem_cons.mpr ⟨hv, hvs⟩, hshow.append hshows⟩

end

theorem exists_readEntries {policy : Policy} {entries : List (String × Json)}
    (h : ∀ e ∈ entries, ∃ ts, (readEntry policy e.1 e.2).outcome = .ok ts) :
    ∃ ts, (readEntries policy entries).outcome = .ok ts := by
  induction entries with
  | nil => exact ⟨[], by rw [readEntries, Reading.pure]⟩
  | cons e rest ih =>
    obtain ⟨⟨us, hus⟩, hrest⟩ := List.forall_mem_cons.mp h
    obtain ⟨ws, hws⟩ := ih hrest
    rw [readEntries_cons]
    exact ⟨us ++ ws, Reading.outcome_append_eq_ok_iff.mpr ⟨us, ws, hus, hws, rfl⟩⟩

theorem exists_readItems {policy : Policy} {items : List Json}
    (h : ∀ v ∈ items, ∃ t, (read policy v).outcome = .ok t) :
    ∃ ts, (readItems policy items).outcome = .ok ts := by
  induction items with
  | nil => exact ⟨[], by rw [readItems, Reading.pure]⟩
  | cons v vs ih =>
    obtain ⟨⟨t, ht⟩, hvs⟩ := List.forall_mem_cons.mp h
    obtain ⟨us, hus⟩ := ih hvs
    rw [readItems]
    exact ⟨t.toList ++ us, Reading.outcome_bind_eq_ok_iff.mpr
      ⟨t, ht, Reading.outcome_map_eq_ok_iff.mpr ⟨us, hus, rfl⟩⟩⟩

mutual

/-- Every filter is read. -/
theorem IsFilter.exists_read {v : Json} : IsFilter v → ∃ t, (read .strict v).outcome = .ok t
  | .null => ⟨none, by rw [read, Reading.pure]⟩
  | .obj each => by
    obtain ⟨ts, hts⟩ := exists_readEntries fun e he => (each e he).exists_readEntry
    rw [read]
    exact ⟨_, Reading.outcome_map_eq_ok_iff.mpr ⟨ts, hts, rfl⟩⟩

theorem IsEntry.exists_readEntry {key : String} {v : Json} :
    IsEntry key v → ∃ ts, (readEntry .strict key v).outcome = .ok ts
  | .list c hkey each => by
    obtain ⟨ts, hts⟩ := exists_readItems fun w hw => (each w hw).exists_read
    simp only [readEntry, hkey, readList]
    exact ⟨_, Reading.outcome_map_eq_ok_iff.mpr ⟨ts, hts, rfl⟩⟩
  | .field hkey h => by
    simp only [readEntry, hkey, ← Path.ofKeys_singleton]
    exact ⟨_, (readField_eq_ok_iff (List.cons_ne_nil _ _) v).mpr ⟨h, rfl⟩⟩

end

/-- In an object of operators, somewhere a key is written as part of the key above it. -/
inductive DotsOperators : Json → Json → Prop
  | here (before after : List (String × Json)) {f g : String} (m : Json)
      (hf : Operator.ofName? f = none) (hg : Operator.ofName? g = none) :
      DotsOperators (.obj (before ++ (f, .obj [(g, m)]) :: after))
        (.obj (before ++ (f ++ "." ++ g, m) :: after))
  | under (before after : List (String × Json)) {f : String} {v w : Json}
      (hf : Operator.ofName? f = none) (h : DotsOperators v w) :
      DotsOperators (.obj (before ++ (f, v) :: after)) (.obj (before ++ (f, w) :: after))

inductive Dots : Json → Json → Prop
  | here (before after : List (String × Json)) {f g : String} (m : Json)
      (hf : Connective.ofName? f = none) (hg : Operator.ofName? g = none) :
      Dots (.obj (before ++ (f, .obj [(g, m)]) :: after))
        (.obj (before ++ (f ++ "." ++ g, m) :: after))
  | under (before after : List (String × Json)) {f : String} {v w : Json}
      (hf : Connective.ofName? f = none) (h : DotsOperators v w) :
      Dots (.obj (before ++ (f, v) :: after)) (.obj (before ++ (f, w) :: after))
  | item (before after : List (String × Json)) {key : String} {c : Connective}
      (first last : List Json) {v w : Json} (hkey : Connective.ofName? key = some c)
      (h : Dots v w) :
      Dots (.obj (before ++ (key, .arr (first ++ v :: last)) :: after))
        (.obj (before ++ (key, .arr (first ++ w :: last)) :: after))

section Congruence

variable {policy : Policy}

theorem readOperators_congr {field : Path} {k l : String} {v w : Json}
    (h : ∀ ts, (readOperator policy field k v).outcome = .ok ts ↔
      (readOperator policy field l w).outcome = .ok ts)
    (before after : List (String × Json)) (ts : List Tree) :
    (readOperators policy field (before ++ (k, v) :: after)).outcome = .ok ts ↔
      (readOperators policy field (before ++ (l, w) :: after)).outcome = .ok ts := by
  induction before generalizing ts with
  | nil => simp only [List.nil_append, readOperators_cons, Reading.outcome_append_eq_ok_iff, h]
  | cons b before ih =>
    obtain ⟨key, x⟩ := b
    simp only [List.cons_append, readOperators_cons, Reading.outcome_append_eq_ok_iff, ih]

theorem readEntries_congr {k l : String} {v w : Json}
    (h : ∀ ts, (readEntry policy k v).outcome = .ok ts ↔ (readEntry policy l w).outcome = .ok ts)
    (before after : List (String × Json)) (ts : List Tree) :
    (readEntries policy (before ++ (k, v) :: after)).outcome = .ok ts ↔
      (readEntries policy (before ++ (l, w) :: after)).outcome = .ok ts := by
  induction before generalizing ts with
  | nil => simp only [List.nil_append, readEntries_cons, Reading.outcome_append_eq_ok_iff, h]
  | cons b before ih =>
    obtain ⟨key, x⟩ := b
    simp only [List.cons_append, readEntries_cons, Reading.outcome_append_eq_ok_iff, ih]

theorem readItems_congr {v w : Json}
    (h : ∀ t, (read policy v).outcome = .ok t ↔ (read policy w).outcome = .ok t)
    (first last : List Json) (ts : List Tree) :
    (readItems policy (first ++ v :: last)).outcome = .ok ts ↔
      (readItems policy (first ++ w :: last)).outcome = .ok ts := by
  induction first generalizing ts with
  | nil => simp only [List.nil_append, readItems, Reading.outcome_bind_eq_ok_iff, h]
  | cons x first ih =>
    simp only [List.cons_append, readItems, Reading.outcome_bind_eq_ok_iff,
      Reading.outcome_map_eq_ok_iff, ih]

theorem read_obj_congr {k l : String} {v w : Json}
    (h : ∀ ts, (readEntry policy k v).outcome = .ok ts ↔ (readEntry policy l w).outcome = .ok ts)
    (before after : List (String × Json)) (t : Option Tree) :
    (read policy (.obj (before ++ (k, v) :: after))).outcome = .ok t ↔
      (read policy (.obj (before ++ (l, w) :: after))).outcome = .ok t := by
  simp only [read, Reading.outcome_map_eq_ok_iff, readEntries_congr h before after]

end Congruence

theorem readField_nested (field : Path) {g : String} (hg : Operator.ofName? g = none) (m : Json)
    (ts : List Tree) :
    (readField .strict field (.obj [(g, m)])).outcome = .ok ts ↔
      (readField .strict (field.under g) m).outcome = .ok ts := by
  rw [readField, readOperators_cons, Reading.outcome_append_eq_ok_iff]
  simp [readOperators, Reading.pure, readOperator_eq_ok_iff hg]

theorem DotsOperators.readField_iff {v w : Json} (h : DotsOperators v w) :
    ∀ (field : Path) (ts : List Tree), (readField .strict field v).outcome = .ok ts ↔
      (readField .strict field w).outcome = .ok ts := by
  induction h with
  | here before after m hf hg =>
    intro field
    refine readOperators_congr (fun ts => ?_) before after
    rw [readOperator_eq_ok_iff hf, readOperator_eq_ok_iff (Operator.ofName?_dotted _ _),
      readField_nested _ hg, Path.under_dotted]
  | under before after hf _ ih =>
    intro field
    refine readOperators_congr (fun ts => ?_) before after
    rw [readOperator_eq_ok_iff hf, readOperator_eq_ok_iff hf, ih]

theorem Dots.read_iff {v w : Json} (h : Dots v w) :
    ∀ t, (read .strict v).outcome = .ok t ↔ (read .strict w).outcome = .ok t := by
  induction h with
  | here before after m hf hg =>
    refine read_obj_congr (fun ts => ?_) before after
    simp only [readEntry, hf, Connective.ofName?_dotted, readField_nested _ hg, Path.ofText_dotted]
  | under before after hf h =>
    refine read_obj_congr (fun ts => ?_) before after
    simp only [readEntry, hf, h.readField_iff]
  | item before after first last hkey _ ih =>
    refine read_obj_congr (fun ts => ?_) before after
    simp only [readEntry, hkey, readList, Reading.outcome_map_eq_ok_iff,
      readItems_congr ih first last]

/-- A filter is read just where it is one. What is read has the operators of the filter as its
leaves, from left to right, and nothing is read where there are none; it combines nothing that is
empty, and it stays the same where a key is written as part of the key above it. -/
theorem read_strict (v : Json) :
    ((∃ t, (read .strict v).outcome = .ok t) ↔ IsFilter v) ∧
      (∀ t, (read .strict v).outcome = .ok t →
        Tree.leavesAll t.toList = asked v ∧ (t = none ↔ asked v = []) ∧ ∀ u ∈ t, u.IsProper) ∧
      ∀ w, Dots v w → ∀ t, (read .strict v).outcome = .ok t ↔ (read .strict w).outcome = .ok t := by
  refine ⟨⟨fun ⟨t, ht⟩ => (read_sound v ht).1, IsFilter.exists_read⟩, ?_, fun w h => h.read_iff⟩
  intro t ht
  obtain ⟨-, hshow⟩ := read_sound v ht
  have hproper : ∀ u ∈ t, u.IsProper := fun u hu => hshow.proper u (Option.mem_toList.mpr hu)
  refine ⟨hshow.leaves, ?_, hproper⟩
  rw [← hshow.leaves]
  cases t with
  | none => simp [Tree.leavesAll]
  | some u =>
    have hne : Tree.leavesAll [u] ≠ [] := by
      rw [Tree.leavesAll_singleton]
      exact (hproper u rfl).leaves_ne_nil
    exact ⟨nofun, fun h => absurd h hne⟩

theorem read_strict_company :
    let v : Json := .obj [("or", .arr [.null, .obj []]),
      ("company", .obj [("name", .obj [("eq", .str "Acme")])])]
    let w : Json := .obj [("or", .arr [.null, .obj []]),
      ("company.name", .obj [("eq", .str "Acme")])]
    IsFilter v ∧ Dots v w ∧ ∃ t, (read .strict v).outcome = .ok (some t) ∧
      (read .strict w).outcome = .ok (some t) ∧ t.IsProper ∧
      t.leaves = [⟨⟨["company", "name"]⟩, .eq, .str "Acme"⟩] := by
  intro v w
  have hdots : Dots v w := .here [("or", .arr [.null, .obj []])] [] _ rfl rfl
  have hasked : asked v = [⟨⟨["company", "name"]⟩, .eq, .str "Acme"⟩] := rfl
  obtain ⟨hread, hshow, hsame⟩ := read_strict v
  have hlist : IsEntry "or" (.arr [.null, .obj []]) := by
    refine .list .any rfl ?_
    simp [IsFilter.null, IsFilter.obj]
  have hfield : IsEntry "company" (.obj [("name", .obj [("eq", .str "Acme")])]) := by
    refine .field rfl (.obj ?_)
    simp only [List.mem_singleton, forall_eq]
    refine fun _ => .obj ?_
    simp only [List.mem_singleton, forall_eq]
    nofun
  have hv : IsFilter v := .obj (by simpa using ⟨hlist, hfield⟩)
  obtain ⟨t, ht⟩ := hread.mpr hv
  obtain ⟨hleaves, hnone, hproper⟩ := hshow t ht
  rw [hasked] at hleaves hnone
  cases t with
  | none => simp at hnone
  | some t =>
    rw [Option.toList_some, Tree.leavesAll_singleton] at hleaves
    exact ⟨hv, hdots, t, ht, (hsame w hdots _).mp ht, hproper t rfl, hleaves⟩

end Filter

end Clientele
