import Clientele.Proofs.Filter.Grammar

/-!
Letting unknown operators pass is reading the filter without them. What has the wrong shape is
refused all the same, with the failure that stands first, and a filter that has no unknown operator
is read as ever.
-/
set_option autoImplicit false

namespace Clientele.Filter

mutual

def pruneBelow : Json → Option Json
  | .obj entries => some (.obj (pruneOperators entries))
  | _ => none

/-- The entries without those that are no operator and do not lead on to an object. -/
def pruneOperators : List (String × Json) → List (String × Json)
  | [] => []
  | (key, operand) :: rest =>
    match Operator.ofName? key, pruneBelow operand with
    | some _, _ => (key, operand) :: pruneOperators rest
    | none, some v => (key, v) :: pruneOperators rest
    | none, none => pruneOperators rest

end

def pruneField : Json → Json
  | .obj entries => .obj (pruneOperators entries)
  | v => v

mutual

/-- The filter without the operators that are not known. What has the wrong shape stays. -/
def prune : Json → Json
  | .obj entries => .obj (pruneEntries entries)
  | v => v

def pruneEntries : List (String × Json) → List (String × Json)
  | [] => []
  | (key, v) :: rest =>
    (key, match Connective.ofName? key with
      | some _ => pruneList v
      | none => pruneField v) :: pruneEntries rest

def pruneList : Json → Json
  | .arr items => .arr (pruneItems items)
  | v => v

def pruneItems : List Json → List Json
  | [] => []
  | v :: vs => prune v :: pruneItems vs

end

mutual

/-- Neither null nor an object, or an object with an entry of the wrong shape. -/
inductive IsMalformed : Json → Prop
  | value {v : Json} (hnull : v ≠ .null) (hobj : ∀ entries, v ≠ .obj entries) : IsMalformed v
  | entry {entries : List (String × Json)} {e : String × Json} (he : e ∈ entries)
      (h : IsMalformedEntry e.1 e.2) : IsMalformed (.obj entries)

/-- No list under `and` or `or`, or a list with an item of the wrong shape; no object under another
key. -/
inductive IsMalformedEntry : String → Json → Prop
  | list {key : String} {v : Json} (c : Connective) (hkey : Connective.ofName? key = some c)
      (h : ∀ items, v ≠ .arr items) : IsMalformedEntry key v
  | item {key : String} {items : List Json} {v : Json} (c : Connective)
      (hkey : Connective.ofName? key = some c) (hv : v ∈ items) (h : IsMalformed v) :
      IsMalformedEntry key (.arr items)
  | field {key : String} {v : Json} (hkey : Connective.ofName? key = none)
      (h : ∀ entries, v ≠ .obj entries) : IsMalformedEntry key v

end

theorem Reading.outcome_append {α : Type} (r s : Reading (List α)) :
    (r.bind fun ts => s.map (ts ++ ·)).outcome =
      r.outcome.bind fun ts => s.outcome.map (ts ++ ·) :=
  outcome_bind r _

theorem Reading.outcome_append_of_nil {α : Type} {r : Reading (List α)} (h : r.outcome = .ok [])
    (s : Reading (List α)) : (r.bind fun ts => s.map (ts ++ ·)).outcome = s.outcome := by
  rw [outcome_append, h]
  cases hs : s.outcome <;> simp [Except.bind, Except.map]

theorem readOperators_lenient :
    ∀ (field : Path) (entries : List (String × Json)),
      (readOperators .lenient field entries).outcome =
        (readOperators .strict field (pruneOperators entries)).outcome
  | _, [] => by rw [pruneOperators, readOperators, readOperators]
  | field, (key, operand) :: rest => by
    have hrest := readOperators_lenient field rest
    rw [readOperators_cons, pruneOperators]
    cases hkey : Operator.ofName? key with
    | some op =>
      simp only [readOperators_cons, Reading.outcome_append, readOperator, hkey, hrest]
    | none =>
      cases operand with
      | obj entries =>
        simp only [pruneBelow, readOperators_cons, Reading.outcome_append, readOperator, hkey,
          hrest, readOperators_lenient _ entries]
      | _ =>
        simp only [pruneBelow, ← hrest]
        exact Reading.outcome_append_of_nil (by simp [readOperator, hkey, unknownOperator]) _

theorem readField_lenient (field : Path) (v : Json) :
    (readField .lenient field v).outcome = (readField .strict field (pruneField v)).outcome := by
  cases v with
  | obj entries => simp only [readField, pruneField, readOperators_lenient]
  | _ => rfl

mutual

theorem read_prune : ∀ (v : Json),
    (read .lenient v).outcome = (read .strict (prune v)).outcome
  | .obj entries => by
    simp only [read, prune, Reading.map, readEntries_prune entries]
  | .null | .bool _ | .num _ | .str _ | .arr _ => by simp [read, prune]

theorem readEntries_prune : ∀ (entries : List (String × Json)),
    (readEntries .lenient entries).outcome = (readEntries .strict (pruneEntries entries)).outcome
  | [] => by rw [pruneEntries, readEntries, readEntries]
  | (key, v) :: rest => by
    rw [pruneEntries, readEntries_cons, readEntries_cons, Reading.outcome_append,
      Reading.outcome_append, readEntries_prune rest]
    cases hkey : Connective.ofName? key with
    | some c => simp only [readEntry, hkey, Reading.map, readList_prune c v]
    | none => simp only [readEntry, hkey, readField_lenient]

theorem readList_prune (c : Connective) : ∀ (v : Json),
    (readList .lenient c v).outcome = (readList .strict c (pruneList v)).outcome
  | .arr items => by simp only [readList, pruneList, readItems_prune items]
  | .null | .bool _ | .num _ | .str _ | .obj _ => by simp [readList, pruneList]

theorem readItems_prune : ∀ (items : List Json),
    (readItems .lenient items).outcome = (readItems .strict (pruneItems items)).outcome
  | [] => by rw [pruneItems, readItems, readItems]
  | v :: vs => by
    simp only [pruneItems, readItems, Reading.outcome_bind, Reading.map, read_prune v,
      readItems_prune vs]

end

theorem pruneOperators_eq {entries : List (String × Json)}
    (h : ∀ e ∈ entries, Operator.ofName? e.1 = none → pruneBelow e.2 = some e.2) :
    pruneOperators entries = entries := by
  induction entries with
  | nil => rfl
  | cons e rest ih =>
    obtain ⟨key, operand⟩ := e
    obtain ⟨hhead, hrest⟩ := List.forall_mem_cons.mp h
    cases hkey : Operator.ofName? key with
    | some op => simp only [pruneOperators, hkey, ih hrest]
    | none => simp only [pruneOperators, hkey, ih hrest, hhead hkey]

theorem IsOperators.pruneBelow_eq {v : Json} (h : IsOperators v) : pruneBelow v = some v := by
  induction h with
  | obj _ ih => rw [pruneBelow, pruneOperators_eq ih]

theorem IsOperators.pruneField_eq {v : Json} (h : IsOperators v) : pruneField v = v := by
  obtain ⟨below⟩ := h
  rw [pruneField, pruneOperators_eq fun e he hkey => (below e he hkey).pruneBelow_eq]

def pruneEntry (key : String) (v : Json) : Json :=
  match Connective.ofName? key with
  | some _ => pruneList v
  | none => pruneField v

theorem pruneEntries_eq {entries : List (String × Json)}
    (h : ∀ e ∈ entries, pruneEntry e.1 e.2 = e.2) : pruneEntries entries = entries := by
  induction entries with
  | nil => rfl
  | cons e rest ih =>
    obtain ⟨hhead, hrest⟩ := List.forall_mem_cons.mp h
    rw [pruneEntries, ih hrest]
    exact congrArg (fun v => (e.1, v) :: rest) hhead

theorem pruneItems_eq {items : List Json} (h : ∀ v ∈ items, prune v = v) :
    pruneItems items = items := by
  induction items with
  | nil => rfl
  | cons v vs ih =>
    obtain ⟨hv, hvs⟩ := List.forall_mem_cons.mp h
    rw [pruneItems, hv, ih hvs]

mutual

theorem IsFilter.prune_eq {v : Json} : IsFilter v → prune v = v
  | .null => rfl
  | .obj each => by rw [prune, pruneEntries_eq fun e he => (each e he).pruneEntry_eq]

theorem IsEntry.pruneEntry_eq {key : String} {v : Json} : IsEntry key v → pruneEntry key v = v
  | .list c hkey each => by
    simp only [pruneEntry, hkey, pruneList, pruneItems_eq fun w hw => (each w hw).prune_eq]
  | .field hkey h => by simp only [pruneEntry, hkey, h.pruneField_eq]

end

def Error.IsShape : Error → Prop
  | .notObject _ | .notList _ | .notOperators _ => True
  | .unsupported .. | .operand .. => False

theorem Reading.outcome_append_eq_error_iff {α : Type} {r s : Reading (List α)} {e : Error} :
    (r.bind fun ts => s.map (ts ++ ·)).outcome = .error e ↔
      r.outcome = .error e ∨ (∃ ts, r.outcome = .ok ts) ∧ s.outcome = .error e := by
  rw [outcome_append]
  cases r.outcome <;> simp [Except.bind, Except.map_eq_error_iff]

theorem Reading.exists_error_append_iff {α : Type} {r s : Reading (List α)} :
    (∃ e, (r.bind fun ts => s.map (ts ++ ·)).outcome = .error e) ↔
      (∃ e, r.outcome = .error e) ∨ ∃ e, s.outcome = .error e := by
  rw [outcome_append]
  cases r.outcome <;> simp [Except.bind, Except.map_eq_error_iff]

theorem exists_readOperators_lenient :
    ∀ (field : Path) (entries : List (String × Json)),
      ∃ ts, (readOperators .lenient field entries).outcome = .ok ts
  | _, [] => ⟨[], by rw [readOperators, Reading.pure]⟩
  | field, (key, operand) :: rest => by
    obtain ⟨us, hus⟩ : ∃ us, (readOperator .lenient field key operand).outcome = .ok us := by
      cases hkey : Operator.ofName? key with
      | some op => simp [readOperator, hkey, Reading.pure]
      | none =>
        cases operand with
        | obj entries => simpa [readOperator, hkey] using exists_readOperators_lenient _ entries
        | _ => simp [readOperator, hkey, unknownOperator]
    obtain ⟨ws, hws⟩ := exists_readOperators_lenient field rest
    rw [readOperators_cons]
    exact ⟨us ++ ws, Reading.outcome_append_eq_ok_iff.mpr ⟨us, ws, hus, hws, rfl⟩⟩

theorem readField_lenient_eq_error_iff {field : Path} {v : Json} {e : Error} :
    (readField .lenient field v).outcome = .error e ↔
      (∀ entries, v ≠ .obj entries) ∧ .notOperators field = e := by
  cases v with
  | obj entries =>
    obtain ⟨ts, hts⟩ := exists_readOperators_lenient field entries
    simp [readField, hts]
  | _ => simp [readField, Reading.fail]

mutual

theorem isMalformed_of_read :
    ∀ (v : Json) {e : Error}, (read .lenient v).outcome = .error e → IsMalformed v ∧ e.IsShape
  | .null, _, h => by simp [read, Reading.pure] at h
  | .obj entries, _, h => by
    rw [read] at h
    obtain ⟨d, hd, hmal, hshape⟩ :=
      exists_malformed_of_readEntries entries (Except.map_eq_error_iff.mp h)
    exact ⟨.entry hd hmal, hshape⟩
  | .bool _, _, h | .num _, _, h | .str _, _, h | .arr _, _, h => by
    simp only [read, Reading.fail, Except.error.injEq] at h
    subst h
    exact ⟨.value (by simp) (by simp), trivial⟩

theorem exists_malformed_of_readEntries :
    ∀ (entries : List (String × Json)) {e : Error},
      (readEntries .lenient entries).outcome = .error e →
      ∃ d ∈ entries, IsMalformedEntry d.1 d.2 ∧ e.IsShape
  | [], _, h => by simp [readEntries, Reading.pure] at h
  | (key, v) :: rest, e, h => by
    rw [readEntries_cons] at h
    rcases Reading.outcome_append_eq_error_iff.mp h with hhead | ⟨-, hrest⟩
    · refine ⟨(key, v), List.mem_cons_self, ?_⟩
      unfold readEntry at hhead
      cases hkey : Connective.ofName? key with
      | some c =>
        simp only [hkey] at hhead
        exact isMalformedEntry_of_readList c hkey v (Except.map_eq_error_iff.mp hhead)
      | none =>
        simp only [hkey] at hhead
        obtain ⟨hobj, rfl⟩ := readField_lenient_eq_error_iff.mp hhead
        exact ⟨.field hkey hobj, trivial⟩
    · obtain ⟨d, hd, hmal⟩ := exists_malformed_of_readEntries rest hrest
      exact ⟨d, List.mem_cons_of_mem _ hd, hmal⟩

theorem isMalformedEntry_of_readList {key : String} (c : Connective)
    (hkey : Connective.ofName? key = some c) :
    ∀ (v : Json) {e : Error}, (readList .lenient c v).outcome = .error e →
      IsMalformedEntry key v ∧ e.IsShape
  | .arr items, _, h => by
    rw [readList] at h
    obtain ⟨v, hv, hmal, hshape⟩ := exists_malformed_of_readItems items h
    exact ⟨.item c hkey hv hmal, hshape⟩
  | .null, _, h | .bool _, _, h | .num _, _, h | .str _, _, h | .obj _, _, h => by
    simp only [readList, Reading.fail, Except.error.injEq] at h
    subst h
    exact ⟨.list c hkey (by simp), trivial⟩

theorem exists_malformed_of_readItems :
    ∀ (items : List Json) {e : Error}, (readItems .lenient items).outcome = .error e →
      ∃ v ∈ items, IsMalformed v ∧ e.IsShape
  | [], _, h => by simp [readItems, Reading.pure] at h
  | v :: vs, _, h => by
    rw [readItems, Reading.outcome_bind] at h
    cases hv : (read .lenient v).outcome with
    | error e =>
      rw [hv] at h
      cases h
      exact ⟨v, List.mem_cons_self, isMalformed_of_read v hv⟩
    | ok t =>
      rw [hv] at h
      obtain ⟨w, hw, hmal⟩ := exists_malformed_of_readItems vs (Except.map_eq_error_iff.mp h)
      exact ⟨w, List.mem_cons_of_mem v hw, hmal⟩

end

theorem exists_error_readEntries {entries : List (String × Json)} {d : String × Json}
    (hd : d ∈ entries) (h : ∃ e, (readEntry .lenient d.1 d.2).outcome = .error e) :
    ∃ e, (readEntries .lenient entries).outcome = .error e := by
  induction entries with
  | nil => cases hd
  | cons b rest ih =>
    rw [readEntries_cons, Reading.exists_error_append_iff]
    rcases List.mem_cons.mp hd with rfl | hd
    · exact .inl h
    · exact .inr (ih hd)

theorem exists_error_readItems {items : List Json} {v : Json} (hv : v ∈ items)
    (h : ∃ e, (read .lenient v).outcome = .error e) :
    ∃ e, (readItems .lenient items).outcome = .error e := by
  induction items with
  | nil => cases hv
  | cons w ws ih =>
    rw [readItems, Reading.outcome_bind]
    cases hw : (read .lenient w).outcome with
    | error e => exact ⟨e, rfl⟩
    | ok t =>
      rcases List.mem_cons.mp hv with rfl | hv
      · obtain ⟨e, he⟩ := h
        cases hw.symm.trans he
      · obtain ⟨e, he⟩ := ih hv
        exact ⟨e, Except.map_eq_error_iff.mpr he⟩

mutual

/-- Everything that has the wrong shape is refused. -/
theorem IsMalformed.exists_error {v : Json} :
    IsMalformed v → ∃ e, (read .lenient v).outcome = .error e
  | .value hnull hobj => by
    cases v with
    | null => exact absurd rfl hnull
    | obj entries => exact absurd rfl (hobj entries)
    | _ => simp [read, Reading.fail]
  | .entry he h => by
    obtain ⟨e, herror⟩ := exists_error_readEntries he h.exists_error_entry
    rw [read]
    exact ⟨e, Except.map_eq_error_iff.mpr herror⟩

theorem IsMalformedEntry.exists_error_entry {key : String} {v : Json} :
    IsMalformedEntry key v → ∃ e, (readEntry .lenient key v).outcome = .error e
  | .list c hkey h => by
    refine ⟨.notList c, ?_⟩
    simp only [readEntry, hkey]
    cases v with
    | arr items => exact absurd rfl (h items)
    | _ => simp [readList, Reading.fail, Reading.map, Except.map]
  | .item c hkey hv h => by
    obtain ⟨e, herror⟩ := exists_error_readItems hv h.exists_error
    simp only [readEntry, hkey, readList]
    exact ⟨e, Except.map_eq_error_iff.mpr herror⟩
  | .field hkey h => by
    simp only [readEntry, hkey]
    exact ⟨_, readField_lenient_eq_error_iff.mpr ⟨h, rfl⟩⟩

end

/-- Letting unknown operators pass is reading the filter without them, failures included. No
operator is refused then, everything of the wrong shape is, and what was read before is read the
same. -/
theorem read_lenient (v : Json) :
    (read .lenient v).outcome = (read .strict (prune v)).outcome ∧
      (∀ field operator, (read .lenient v).outcome ≠ .error (.unsupported field operator)) ∧
      ((∃ e, (read .lenient v).outcome = .error e) ↔ IsMalformed v) ∧
      ∀ t, (read .strict v).outcome = .ok t → (read .lenient v).outcome = .ok t := by
  refine ⟨read_prune v, ?_, ?_, ?_⟩
  · intro field operator h
    exact (isMalformed_of_read v h).2
  · exact ⟨fun ⟨_, h⟩ => (isMalformed_of_read v h).1, IsMalformed.exists_error⟩
  · intro t ht
    rw [read_prune, (read_sound v ht).1.prune_eq, ht]

theorem read_lenient_near :
    let v : Json := .obj [("or", .arr [.obj [("name", .obj [("near", .str "b")])]]),
      ("tags", .obj [("in", .arr [.str "a"]), ("near", .str "b")])]
    (read .strict v).outcome = .error (.unsupported ⟨["name"]⟩ "near") ∧
      prune v = .obj [("or", .arr [.obj [("name", .obj [])]]),
        ("tags", .obj [("in", .arr [.str "a"])])] ∧
      (read .lenient v).outcome = .ok (some (.leaf ⟨["tags"]⟩ .oneOf (.arr [.str "a"]))) := by
  intro v
  have hnear : Operator.ofName? "near" = none := rfl
  have hstrict : (read .strict v).outcome = .error (.unsupported ⟨["name"]⟩ "near") := by
    simp only [v, read, readEntries, readList, readItems, readField, readOperators, hnear]
    rfl
  have hprune : prune v = .obj [("or", .arr [.obj [("name", .obj [])]]),
      ("tags", .obj [("in", .arr [.str "a"])])] := rfl
  obtain ⟨hread, -⟩ := read_lenient v
  refine ⟨hstrict, hprune, ?_⟩
  rw [hread, hprune]
  simp only [read, readEntries, readList, readItems, readField, readOperators]
  rfl

end Clientele.Filter
