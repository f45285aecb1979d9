import Clientele.Proofs.Filter.Reordering

/-!
What a filter is compiled to. Nothing that always holds is left inside, no combination has fewer
than two parts, and the fields are those of the leaves that set a condition, in their order, with
operands of the type that the field calls for. A fault in any leaf is a fault of the filter,
whatever stands around it, and of several faults the leftmost is told.
-/
set_option autoImplicit false

namespace Clientele

theorem Except.mapM_eq_ok_iff {ε α β : Type} {f : α → Except ε β} {xs : List α} {ys : List β} :
    xs.mapM f = .ok ys ↔ List.Forall₂ (fun x y => f x = .ok y) xs ys := by
  induction xs generalizing ys with
  | nil => cases ys <;> simp [pure, Except.pure]
  | cons x xs ih =>
    rw [List.mapM_cons, Except.bind_eq_ok_iff]
    simp only [Except.bind_eq_ok_iff, ih, List.forall₂_cons_left_iff]
    constructor
    · rintro ⟨y, hy, zs, hzs, h⟩
      cases h
      exact ⟨y, zs, hy, hzs, rfl⟩
    · rintro ⟨y, zs, hy, hzs, rfl⟩
      exact ⟨y, hy, zs, hzs, rfl⟩

namespace Filter

namespace Predicate

mutual

/-- The fields of a predicate from left to right, each with its condition. -/
def fields : Predicate → List (Path × Condition)
  | always => []
  | all ps | any ps => fieldsAll ps
  | field path c => [(path, c)]

def fieldsAll : List Predicate → List (Path × Condition)
  | [] => []
  | p :: ps => fields p ++ fieldsAll ps

end

/-- Nothing in the predicate always holds, and each combination has at least two parts. -/
inductive IsReduced : Predicate → Prop
  | field (path : Path) (c : Condition) : IsReduced (.field path c)
  | all {ps : List Predicate} (several : 2 ≤ ps.length) (each : ∀ p ∈ ps, IsReduced p) :
      IsReduced (.all ps)
  | any {ps : List Predicate} (several : 2 ≤ ps.length) (each : ∀ p ∈ ps, IsReduced p) :
      IsReduced (.any ps)

theorem fieldsAll_eq_flatMap (ps : List Predicate) : fieldsAll ps = ps.flatMap fields := by
  induction ps with
  | nil => rfl
  | cons p ps ih => rw [fieldsAll, ih, List.flatMap_cons]

theorem flatMap_fields_filter (ps : List Predicate) :
    (ps.filter (!·.isAlways)).flatMap fields = ps.flatMap fields := by
  induction ps with
  | nil => rfl
  | cons p ps ih =>
    rw [List.filter_cons, List.flatMap_cons, ← ih]
    cases p <;> rfl

theorem fields_combine (c : Connective) (ps : List Predicate) :
    (combine c ps).fields = ps.flatMap fields := by
  rw [← flatMap_fields_filter, combine]
  split
  case h_1 hnil =>
    rw [hnil]
    rfl
  case h_2 p hone => rw [hone, List.flatMap_singleton]
  case h_3 => cases c <;> exact fieldsAll_eq_flatMap _

theorem reduced_combine (c : Connective) {ps : List Predicate}
    (h : ∀ p ∈ ps, p = .always ∨ p.IsReduced) :
    combine c ps = .always ∨ (combine c ps).IsReduced := by
  have hkept : ∀ p ∈ ps.filter (!·.isAlways), p.IsReduced := by
    intro p hp
    obtain ⟨hmem, hsays⟩ := List.mem_filter.mp hp
    refine (h p hmem).resolve_left ?_
    rintro rfl
    cases hsays
  unfold combine
  generalize ps.filter (!·.isAlways) = kept at hkept
  match kept with
  | [] => exact .inl rfl
  | [p] => exact .inr (hkept p (List.mem_singleton_self p))
  | p :: q :: rest =>
    have hseveral : 2 ≤ (p :: q :: rest).length := by simp
    cases c with
    | all => exact .inr (.all hseveral hkept)
    | any => exact .inr (.any hseveral hkept)

end Predicate

def Operand.kind : Operand → FieldKind
  | json _ => .plain
  | date _ => .date
  | id _ => .identifier

def Check.operands : Check → List Operand
  | eq o | gt o | gte o | lt o | lte o => [o]
  | like _ => []
  | oneOf os => os
  | within least most => [least, most]

def Condition.operands : Condition → List Operand
  | present _ => []
  | some c | none c => c.operands

variable {kind : FieldKind} {v : Json}

theorem kind_of_coerce {o : Operand} (h : coerce kind v = .ok o) : o.kind = kind := by
  cases kind with
  | identifier =>
    cases hv : Identifier.ofJson? v <;> rw [coerce, hv] at h <;> cases h
    rfl
  | date =>
    cases hv : dateOf? v <;> rw [coerce, hv] at h <;> cases h
    rfl
  | plain =>
    cases h
    rfl

theorem kind_of_coerceSingle {o : Operand} (h : coerceSingle kind v = .ok o) : o.kind = kind := by
  cases v with
  | arr vs =>
    rw [coerceSingle] at h
    split at h
    case isTrue hplain =>
      cases h
      exact hplain.symm
    case isFalse => cases h
  | _ => exact kind_of_coerce h

theorem kind_of_coerceList {os : List Operand} (h : coerceList kind v = .ok os) :
    ∀ o ∈ os, o.kind = kind := by
  cases v with
  | arr vs =>
    have hitems := forall₂_of_coerceItems h
    clear h
    induction hitems with
    | nil => nofun
    | cons hv _ ih => exact List.forall_mem_cons.mpr ⟨kind_of_coerce hv, ih⟩
  | _ => cases h

theorem kind_of_orderedBounds {least most : Operand} (h : orderedBounds kind v = .ok (least, most)) :
    least.kind = kind ∧ most.kind = kind := by
  obtain ⟨os, hos, h⟩ := Except.bind_eq_ok_iff.mp h
  have hkinds := kind_of_coerceList hos
  match os with
  | [a, b] =>
    have ha := hkinds a (by simp)
    have hb := hkinds b (by simp)
    simp only at h
    split at h <;> cases h
    · exact ⟨hb, ha⟩
    · exact ⟨ha, hb⟩
  | [] | [_] | _ :: _ :: _ :: _ => cases h

theorem kind_of_rangeOf {c : Check} (h : rangeOf kind v = .ok (some c)) :
    ∀ o ∈ c.operands, o.kind = kind := by
  unfold rangeOf at h
  split at h
  · cases h
  · obtain ⟨⟨least, most⟩, hbounds, hc⟩ := Except.map_eq_ok_iff.mp h
    cases hc
    obtain ⟨hleast, hmost⟩ := kind_of_orderedBounds hbounds
    simp [Check.operands, hleast, hmost]

theorem kind_of_conditionOf {op : Operator} {c : Condition}
    (h : conditionOf kind op v = .ok (some c)) : ∀ o ∈ c.operands, o.kind = kind := by
  cases op with
  | is | isNot =>
    obtain ⟨b, -, hc⟩ := Except.map_eq_ok_iff.mp h
    cases hc
    nofun
  | eq | neq | gt | gte | lt | lte =>
    obtain ⟨o, ho, hc⟩ := Except.map_eq_ok_iff.mp h
    cases hc
    exact List.forall_mem_singleton.mpr (kind_of_coerceSingle ho)
  | like | notLike | iLike | notILike =>
    obtain ⟨p, -, hc⟩ := Except.map_eq_ok_iff.mp h
    obtain ⟨p, -, rfl⟩ := Option.map_eq_some_iff.mp hc
    nofun
  | oneOf | noneOf =>
    obtain ⟨os, hos, hc⟩ := Except.map_eq_ok_iff.mp h
    cases hc
    exact kind_of_coerceList hos
  | between | notBetween =>
    obtain ⟨check, hcheck, hc⟩ := Except.map_eq_ok_iff.mp h
    obtain ⟨check, rfl, rfl⟩ := Option.map_eq_some_iff.mp hc
    exact kind_of_rangeOf hcheck

/-- A field whose path is spelled as it is stored, with operands of the type that it calls for. -/
structure IsTyped (path : Path) (c : Condition) : Prop where
  stored : "id" ∉ path.segments
  identifiers : Path.primaryKey ∈ path.segments → ∀ o ∈ c.operands, ∃ i, o = .id i
  dates : fieldKind path = .date → ∀ o ∈ c.operands, ∃ t, o = .date t

theorem id_not_mem_normalize (p : Path) : "id" ∉ p.normalize.segments := by
  intro h
  obtain ⟨s, -, hs⟩ := List.mem_map.mp h
  split at hs
  · exact absurd hs (by decide)
  · contradiction

theorem isTyped_of_kind {path : Path} (hpath : "id" ∉ path.segments) {c : Condition}
    (h : ∀ o ∈ c.operands, o.kind = fieldKind path) : IsTyped path c := by
  refine ⟨hpath, fun hkey o ho => ?_, fun hdate o ho => ?_⟩
  · have hkind : fieldKind path = .identifier := by
      rw [fieldKind, if_pos (List.contains_iff_mem.mpr hkey)]
    have := (h o ho).trans hkind
    cases o <;> first | exact ⟨_, rfl⟩ | cases this
  · have := (h o ho).trans hdate
    cases o <;> first | exact ⟨_, rfl⟩ | cases this

def Leaf.isEmpty (l : Leaf) : Bool := l.operator.setsNothing l.operand

theorem conditionOf_of_setsNothing {op : Operator} (hv : isNothing v = false)
    (h : op.setsNothing v) : conditionOf kind op v = .ok none := by
  simp only [Operator.setsNothing, hv, Bool.false_or, Bool.or_eq_true, Bool.and_eq_true] at h
  rcases h with ⟨hop, hpercents⟩ | ⟨hop, hopen⟩
  · cases v with
    | str s =>
      have hsource : s.toList.filter (· ≠ '%') = [] := by
        simpa [isPercents, List.filter_eq_nil_iff] using hpercents
      cases op with
      | like | notLike | iLike | notILike =>
        simp only [conditionOf, patternOf, hsource]
        rfl
      | _ => cases hop
    | _ => cases hpercents
  · rw [← hasBlankBound_eq_hasOpenEnd] at hopen
    cases op with
    | between | notBetween =>
      rw [conditionOf, rangeOf, if_pos hopen]
      rfl
    | _ => cases hop

theorem compile_tree_eq_always_iff {l : Leaf} : compile l.tree = .ok .always ↔ l.isEmpty := by
  constructor
  · intro h
    have hverdict := compileLeaf_verdict h .null
    rw [operatorVerdict] at hverdict
    split at hverdict
    · assumption
    · cases hverdict
  · intro h
    rw [Leaf.tree, compile, compileLeaf, isBlank_eq_isNothing]
    cases hv : isNothing l.operand with
    | true => rfl
    | false => simp only [conditionOf_of_setsNothing hv h]; rfl

theorem compile_tree_inv {l : Leaf} {p : Predicate} (h : compile l.tree = .ok p) :
    p = .always ∨ ∃ c, p = .field l.field.normalize c ∧ IsTyped l.field.normalize c := by
  rw [Leaf.tree, compile, compileLeaf] at h
  split at h
  · cases h
    exact .inl rfl
  · simp only at h
    split at h <;> cases h
    · exact .inl rfl
    · rename_i c hc
      exact .inr ⟨c, rfl, isTyped_of_kind (id_not_mem_normalize _) (kind_of_conditionOf hc)⟩

mutual

/-- A tree has the fields of what its leaves are compiled to, or fails as they do. -/
theorem compile_agree : ∀ t : Tree,
    Except.Agree (fun p qs => p.fields = qs.flatMap Predicate.fields) (compile t)
      (t.leaves.mapM fun l => compile l.tree)
  | .leaf field op v => by
    have hleaf : (Tree.leaf field op v).leaves = [⟨field, op, v⟩] := rfl
    rw [hleaf, List.mapM_cons]
    show Except.Agree _ (compile (Leaf.tree ⟨field, op, v⟩)) _
    cases compile (Leaf.tree ⟨field, op, v⟩) with
    | error e => exact .error e
    | ok p => exact .ok (List.flatMap_singleton _ _).symm
  | .node c ts => by
    rw [compile, Tree.leaves]
    exact (compileAll_agree ts).map_left fun ps _ hps => (Predicate.fields_combine c ps).trans hps

theorem compileAll_agree : ∀ ts : List Tree,
    Except.Agree (fun ps qs => ps.flatMap Predicate.fields = qs.flatMap Predicate.fields)
      (compileAll ts) ((Tree.leavesAll ts).mapM fun l => compile l.tree)
  | [] => .ok rfl
  | t :: ts => by
    rw [compileAll, Tree.leavesAll, List.mapM_append]
    refine (compile_agree t).bind fun p qs hp => (compileAll_agree ts).bind fun ps rs hps => ?_
    refine .ok ?_
    rw [List.flatMap_cons, List.flatMap_append, hp, hps]

end

mutual

theorem reduced_of_compile : ∀ (t : Tree) {p : Predicate}, compile t = .ok p →
    p = .always ∨ p.IsReduced
  | .leaf field op v, p, h => by
    rcases compile_tree_inv (l := ⟨field, op, v⟩) h with rfl | ⟨c, rfl, -⟩
    · exact .inl rfl
    · exact .inr (.field _ c)
  | .node c ts, _, h => by
    obtain ⟨ps, hps, rfl⟩ := Except.map_eq_ok_iff.mp h
    exact Predicate.reduced_combine c (reduced_of_compileAll ts hps)

theorem reduced_of_compileAll : ∀ (ts : List Tree) {ps : List Predicate}, compileAll ts = .ok ps →
    ∀ p ∈ ps, p = .always ∨ p.IsReduced
  | [], _, h => by
    cases h
    nofun
  | t :: ts, _, h => by
    obtain ⟨p, hp, h⟩ := Except.bind_eq_ok_iff.mp h
    obtain ⟨ps, hps, h⟩ := Except.bind_eq_ok_iff.mp h
    cases h
    exact List.forall_mem_cons.mpr ⟨reduced_of_compile t hp, reduced_of_compileAll ts hps⟩

end

/-- The field that a leaf puts a condition on, and the condition. -/
structure Leaf.Gives (l : Leaf) (f : Path × Condition) : Prop where
  path : f.1 = l.field.normalize
  compiled : compile l.tree = .ok (.field f.1 f.2)
  typed : IsTyped f.1 f.2

theorem gives_of_compiled {ls : List Leaf} {ps : List Predicate}
    (h : List.Forall₂ (fun l p => compile l.tree = .ok p) ls ps) :
    List.Forall₂ Leaf.Gives (ls.filter (!·.isEmpty)) (ps.flatMap Predicate.fields) := by
  induction h with
  | nil => exact .nil
  | @cons l p ls ps hp _ ih =>
    rcases compile_tree_inv hp with rfl | ⟨c, rfl, htyped⟩
    · rw [List.filter_cons_of_neg (by simp [compile_tree_eq_always_iff.mp hp])]
      exact ih
    · have hsays : (!l.isEmpty) = true := by
        rw [Bool.not_eq_true', Bool.eq_false_iff, ne_eq, ← compile_tree_eq_always_iff, hp]
        nofun
      rw [List.filter_cons_of_pos (p := fun l : Leaf => !l.isEmpty) hsays]
      exact .cons ⟨rfl, hp, htyped⟩ ih

/-- A filter fails where one of its leaves does, and then as the leftmost of these. Otherwise it
either always holds or is reduced, and its fields are those of the leaves that are not empty, each
typed. -/
theorem compile_normal (t : Tree) :
    ((∃ e, compile t = .error e) ↔ ∃ l ∈ t.leaves, ∃ e, compile l.tree = .error e) ∧
    (∀ e, compile t = .error e ↔ ∃ before l after, t.leaves = before ++ l :: after ∧
      (∀ m ∈ before, ∃ p, compile m.tree = .ok p) ∧ compile l.tree = .error e) ∧
    (∀ l ∈ t.leaves, compile l.tree = .ok .always ↔ l.isEmpty) ∧
    ∀ p, compile t = .ok p → (p = .always ∨ p.IsReduced) ∧
      List.Forall₂ Leaf.Gives (t.leaves.filter (!·.isEmpty)) p.fields := by
  have hagree := compile_agree t
  refine ⟨?_, fun e => hagree.eq_error_iff.trans Except.mapM_eq_error_iff,
    fun _ _ => compile_tree_eq_always_iff, fun p hp => ?_⟩
  · rw [Except.exists_error_iff, t.compile_isOk_iff, not_forall]
    refine exists_congr fun l => ?_
    rw [Except.exists_error_iff, Classical.not_imp]
    rfl
  · obtain ⟨qs, hqs, hfields⟩ := hagree.exists_of_eq_ok hp
    rw [hfields]
    exact ⟨reduced_of_compile t hp, gives_of_compiled (Except.mapM_eq_ok_iff.mp hqs)⟩

example : compile (.node .any [.leaf ⟨["name"]⟩ .eq (.str ""),
    .node .all [.leaf ⟨["title"]⟩ .like (.str "%"), .leaf ⟨["id"]⟩ .eq (.str "x")],
    .leaf ⟨["dueDate"]⟩ .gt (.str "soon")]) =
      .error (.operand ⟨["_id"]⟩ "eq" (.notIdentifier (.str "x"))) := by rfl

end Filter
end Clientele
