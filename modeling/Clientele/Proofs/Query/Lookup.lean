import Clientele.Query.Stage
import Clientele.Proofs.Document.Agreement
import Clientele.Proofs.Document.Path

/-!
Joins. A document is joined with those that have one of its keys, as the order for sorting sees
keys: two objects are always one key to it, and two integers beyond 2^53 are if they have the same
double. Keys that agree are always found, and plain keys are joined only where they agree.
-/
set_option autoImplicit false

namespace Clientele

/-- A key that a document has at a path: an item of a list, or what is there if it is no list. Null
is no key. -/
inductive Json.IsKey (doc : Json) (p : Path) : Json → Prop
  | item {xs : List Json} {x : Json} (stored : doc.at? p = some (.arr xs)) (mem : x ∈ xs)
    (present : x ≠ .null) : IsKey doc p x
  | value {v : Json} (stored : doc.at? p = some v) (single : ∀ xs, v ≠ .arr xs)
    (present : v ≠ .null) : IsKey doc p v

theorem Json.not_isNull_iff {v : Json} : (!v.isNull) = true ↔ v ≠ .null := by
  cases v <;> simp [isNull]

theorem Json.mem_keysAt_iff {doc : Json} {p : Path} {k : Json} :
    k ∈ doc.keysAt p ↔ doc.IsKey p k := by
  constructor
  · intro h
    unfold keysAt keysOf at h
    split at h
    case h_1 | h_2 => cases h
    case h_3 xs hstored =>
      obtain ⟨hmem, hpresent⟩ := List.mem_filter.mp h
      exact .item hstored hmem (not_isNull_iff.mp hpresent)
    case h_4 v hnull hlist hstored =>
      obtain rfl := List.mem_singleton.mp h
      exact .value hstored hlist hnull
  · rintro (⟨hstored, hmem, hpresent⟩ | ⟨hstored, hsingle, hpresent⟩)
    · rw [keysAt, hstored]
      exact List.mem_filter.mpr ⟨hmem, not_isNull_iff.mpr hpresent⟩
    · rw [keysAt, hstored, keysOf]
      · exact List.mem_singleton_self k
      · exact hpresent
      · exact hsingle

namespace Query.Lookup

/-- Whether two documents have a key in common, with keys compared in some way. -/
def sharesKey (l : Lookup) (related : Json → Json → Bool) (doc foreign : Json) : Bool :=
  (foreign.keysAt l.foreignField).any fun f => (doc.keysAt l.localField).any fun k => related k f

variable {l : Lookup} {doc f : Json} {foreign : List Json}

theorem sharesKey_iff {related : Json → Json → Bool} :
    l.sharesKey related doc f ↔
      ∃ k k', doc.IsKey l.localField k ∧ f.IsKey l.foreignField k' ∧ related k k' := by
  simp only [sharesKey, List.any_eq_true, Json.mem_keysAt_iff]
  constructor
  · rintro ⟨k', hk', k, hk, hrelated⟩
    exact ⟨k, k', hk, hk', hrelated⟩
  · rintro ⟨k, k', hk, hk', hrelated⟩
    exact ⟨k', hk', k, hk, hrelated⟩

theorem joins_eq (l : Lookup) (doc f : Json) :
    l.joins (doc.keysAt l.localField) f = l.sharesKey Json.seenAlike doc f := by
  refine List.any_congr rfl fun f => List.any_congr rfl fun k => ?_
  rw [Bool.eq_iff_iff, beq_iff_eq, Json.compare_eq_eq]

theorem joined_eq (l : Lookup) (foreign : List Json) (doc : Json) :
    l.joined foreign doc = foreign.filter (l.sharesKey Json.seenAlike doc) :=
  List.filter_congr fun f _ => joins_eq l doc f

theorem mem_joined_of_agree (hf : f ∈ foreign)
    (h : l.sharesKey (Json.agree Number.value) doc f) : f ∈ l.joined foreign doc := by
  obtain ⟨k, k', hk, hk', hagree⟩ := sharesKey_iff.mp h
  rw [joined_eq]
  exact List.mem_filter.mpr ⟨hf, sharesKey_iff.mpr ⟨k, k', hk, hk', Json.seenAlike_of_agree hagree⟩⟩

theorem joined_of_plain (hdoc : ∀ k, doc.IsKey l.localField k → k.IsPlain)
    (hforeign : ∀ f ∈ foreign, ∀ k, f.IsKey l.foreignField k → k.IsPlain) :
    l.joined foreign doc = foreign.filter (l.sharesKey (Json.agree Number.value) doc) := by
  rw [joined_eq]
  refine List.filter_congr fun f hf => ?_
  rw [Bool.eq_iff_iff, sharesKey_iff, sharesKey_iff]
  refine exists₂_congr fun k k' => and_congr_right fun hk => and_congr_right fun hk' => ?_
  exact ⟨Json.agree_of_seenAlike (hdoc k hk) (hforeign f hf k' hk'), Json.seenAlike_of_agree⟩

theorem joined_of_no_key (h : ∀ k, ¬doc.IsKey l.localField k) : l.joined foreign doc = [] := by
  rw [joined_eq, List.filter_eq_nil_iff]
  intro f _ hshares
  obtain ⟨k, k', hk, -, -⟩ := sharesKey_iff.mp hshares
  exact h k hk

/-- A lookup joins the documents that share a key with the document, in their order: those with a
key that the order for sorting finds alike. Keys that agree are among these, numbers being taken for
what they stand for, and no others are where all keys are plain. Without a key nothing is joined.
What is joined, or the first of it, is written at the target; nothing appears at a path that parts
from that of the target, and nothing there is lost unless something else than an object stands on
the way. -/
theorem joined_by_keys (l : Lookup) (foreign : List Json) (doc : Json) :
    (∀ related f, l.sharesKey related doc f ↔
      ∃ k k', doc.IsKey l.localField k ∧ f.IsKey l.foreignField k' ∧ related k k') ∧
    l.joined foreign doc = foreign.filter (l.sharesKey Json.seenAlike doc) ∧
    (∀ f ∈ foreign, l.sharesKey (Json.agree Number.value) doc f → f ∈ l.joined foreign doc) ∧
    ((∀ k, doc.IsKey l.localField k → k.IsPlain) →
      (∀ f ∈ foreign, ∀ k, f.IsKey l.foreignField k → k.IsPlain) →
      l.joined foreign doc = foreign.filter (l.sharesKey (Json.agree Number.value) doc)) ∧
    ((∀ k, ¬doc.IsKey l.localField k) → l.joined foreign doc = []) ∧
    (l.apply foreign doc).at? l.target = some (match l.cardinality with
      | .many => .arr (l.joined foreign doc)
      | .one => (l.joined foreign doc).head?.getD .null) ∧
    ∀ q : Path, Json.diverge l.target.segments q.segments →
      (∀ v, (l.apply foreign doc).at? q = some v → doc.at? q = some v) ∧
      (doc.IsOpenTo l.target.segments → (l.apply foreign doc).at? q = doc.at? q) := by
  refine ⟨fun related f => sharesKey_iff, joined_eq l foreign doc, fun f => mem_joined_of_agree,
    joined_of_plain, joined_of_no_key, ?_, fun q hq => ⟨fun v => ?_, fun hway => ?_⟩⟩
  · refine (Json.resolve_setSegments _ l.target.segments doc).trans (congrArg some ?_)
    unfold value
    cases l.cardinality with
    | one => exact List.headD_eq_head?_getD
    | many => rfl
  · exact Json.resolve_of_setSegments hq
  · exact Json.resolve_setSegments_of_diverge hq hway

/-- Two objects with nothing in common are joined, and so are two integers that follow each other.
-/
theorem joined_unlike :
    let l : Lookup := ⟨"companies", ⟨["company"]⟩, ⟨["reference"]⟩, ⟨["joined"]⟩, .many⟩
    let doc (key : Json) : Json := .obj [("company", key)]
    let foreign (key : Json) : Json := .obj [("reference", key)]
    let number (n : Nat) : Json := .ofNat n
    let name : Json := .obj [("name", .str "Acme")]
    let place : Json := .obj [("place", .str "Oslo")]
    (l.sharesKey (Json.agree Number.value) (doc name) (foreign place) = false ∧
      l.joined [foreign place] (doc name) = [foreign place]) ∧
    l.sharesKey (Json.agree Number.value) (doc (number 9007199254740993))
        (foreign (number 9007199254740992)) = false ∧
      l.joined [foreign (number 9007199254740992)] (doc (number 9007199254740993)) =
        [foreign (number 9007199254740992)] := by
  decide +kernel

end Query.Lookup

end Clientele
