import Clientele.Proofs.Query.Refinement
import Clientele.Proofs.Document.Path

/-!
Writing at a path and reading there fit together: what is written is found, the last of two writes
counts, and paths that part from the one written are left alone as long as nothing is replaced on
the way. So a relation that puts documents in a list and counts them leaves both the list and its
length, whatever stood in their places before.
-/
set_option autoImplicit false

namespace Clientele.Query

/-- Whether a document has a list below a path, and beside the list its length. -/
structure CountsBelow (x : Path) (nodes : List Json) (doc : Json) : Prop where
  listed : doc.at? (x.under "nodes") = some (.arr nodes)
  counted : doc.at? (x.under "totalCount") = some (.ofNat nodes.length)

theorem countsBelow_size (x : Path) (nodes : List Json) (doc : Json) :
    CountsBelow x nodes ((Derived.size (x.under "nodes") (x.under "totalCount")).apply
      (doc.setAt (x.under "nodes") (.arr nodes))) := by
  have hnodes : (x.under "nodes").segments = x.segments ++ ["nodes"] :=
    Path.segments_under (by decide) x
  have hcount : (x.under "totalCount").segments = x.segments ++ ["totalCount"] :=
    Path.segments_under (by decide) x
  have hlisted : (doc.setAt (x.under "nodes") (.arr nodes)).at? (x.under "nodes") =
      some (.arr nodes) := Json.resolve_setSegments _ _ _
  have hsize : (Derived.size (x.under "nodes") (x.under "totalCount")).apply
      (doc.setAt (x.under "nodes") (.arr nodes)) =
        (doc.setAt (x.under "nodes") (.arr nodes)).setAt (x.under "totalCount")
          (.ofNat nodes.length) := by
    rw [Derived.apply, Derived.listAt, hlisted]
    rfl
  -- The list has been written next to where its length goes, so the way is open.
  have hopen : (doc.setAt (x.under "nodes") (.arr nodes)).IsOpenTo
      (x.under "totalCount").segments := by
    rw [hcount]
    refine Json.IsOpenTo.sibling (s := "nodes") ?_ "totalCount"
    rw [← hnodes]
    exact Json.isOpenTo_setSegments _ _ _
  have hpart : Json.diverge (x.under "totalCount").segments (x.under "nodes").segments := by
    rw [hnodes, hcount, Json.diverge_iff]
    simp
  rw [hsize]
  exact ⟨(Json.resolve_setSegments_of_diverge hpart hopen).trans hlisted,
    Json.resolve_setSegments _ _ _⟩

/-- What is written at a path is found there; what is written last stays; and where only objects
stand on the way to a path, one that neither begins with it nor is a beginning of it leads where it
did. A lookup for many documents, followed by their number, leaves all of them and how many they
are. -/
theorem lens_laws (d : Json) (p : Path) (v w : Json) :
    (d.setAt p v).at? p = some v ∧
    (d.setAt p v).setAt p w = d.setAt p w ∧
    (d.IsOpenTo p.segments → ∀ q : Path, ¬p.segments <+: q.segments → ¬q.segments <+: p.segments →
      (d.setAt p v).at? q = d.at? q) ∧
    ∀ (stored : String → List Json) (l : Lookup) (x : Path) (docs : List Json),
      l.target = x.under "nodes" → l.cardinality = .many →
      List.Forall₂ (fun doc counted => CountsBelow x (l.joined (stored l.source) doc) counted) docs
        (Pipeline.run stored
          [.lookup l, .derived (.size (x.under "nodes") (x.under "totalCount"))] docs) := by
  refine ⟨Json.resolve_setSegments _ _ _, Json.setSegments_setSegments _ _ _ _, fun hopen q hp hq =>
    Json.resolve_setSegments_of_diverge (Json.diverge_iff.mpr ⟨hp, hq⟩) hopen, ?_⟩
  intro stored l x docs htarget hmany
  rw [Pipeline.run_relations (by simp [Stage.isRelation]), List.forall₂_map_right_iff,
    List.forall₂_same]
  intro doc _
  have hnodes : l.apply (stored l.source) doc =
      doc.setAt (x.under "nodes") (.arr (l.joined (stored l.source) doc)) := by
    rw [Lookup.apply, Lookup.value, htarget, hmany]
  simp only [related, List.foldl_cons, List.foldl_nil, Stage.extend, hnodes]
  exact countsBelow_size x _ doc

theorem lens_laws_company :
    let d : Json := .obj [("_id", .str "7"), ("company", .obj [("name", .str "Acme")])]
    let contact : Json := .obj [("companyId", .str "7")]
    let x : Path := ⟨["company", "contacts"]⟩
    let p : Path := ⟨["company", "contacts", "nodes"]⟩
    let q : Path := ⟨["company", "name"]⟩
    let l : Lookup := ⟨"contacts", ⟨["_id"]⟩, ⟨["companyId"]⟩, p, .many⟩
    d.IsOpenTo p.segments ∧ ¬p.segments <+: q.segments ∧ ¬q.segments <+: p.segments ∧
      d.at? q = some (.str "Acme") ∧ (d.setAt p .null).at? q = d.at? q ∧
      l.target = x.under "nodes" ∧ l.cardinality = .many ∧ l.joined [contact] d = [contact] ∧
      List.Forall₂ (fun doc counted => CountsBelow x (l.joined [contact] doc) counted) [d]
        (Pipeline.run (fun _ => [contact])
          [.lookup l, .derived (.size (x.under "nodes") (x.under "totalCount"))] [d]) := by
  intro d contact x p q l
  have hopen : d.IsOpenTo p.segments := by
    intro way w hway hne hw
    have hways : way ∈ [[], ["company"], ["company", "contacts"], p.segments] :=
      (List.mem_inits way p.segments).mpr hway
    simp only [List.mem_cons, List.not_mem_nil, or_false] at hways
    rcases hways with rfl | rfl | rfl | rfl
    · exact ⟨_, (Option.some.inj hw).symm⟩
    · exact ⟨_, (Option.some.inj hw).symm⟩
    · cases hw
    · exact absurd rfl hne
  have hp : ¬p.segments <+: q.segments := by decide
  have hq : ¬q.segments <+: p.segments := by decide
  obtain ⟨-, -, hapart, hcounts⟩ := lens_laws d p .null .null
  exact ⟨hopen, hp, hq, by rfl, hapart hopen q hp hq, by decide, rfl, by decide +kernel,
    hcounts (fun _ => [contact]) l x [d] (by decide) rfl⟩

end Clientele.Query
