import Mathlib.Data.List.FinRange
import Mathlib.Data.List.Nodup
import Mathlib.Data.List.Permutation
import Clientele.Crm.Book
import Clientele.Proofs.Filter.Standing
import Clientele.Proofs.StableSort

/-!
What the activity feed shows. The records that a query selects are ranked by the instant they were
made at, the newest first, and records of one instant by their place in the trail, the last one
first. A feed is the records at these places, as many from the top as the query asks for.
-/
set_option autoImplicit false

namespace Clientele

namespace Audit

namespace FeedQuery

structure Selects (q : FeedQuery) (r : Record) : Prop where
  targetEntity : ∀ name, q.targetEntity = some name → r.targetEntity = name
  userId : ∀ id, q.userId = some id → r.userId = id

theorem admits_iff {q : FeedQuery} {r : Record} : q.admits r = true ↔ q.Selects r := by
  simp only [admits, Bool.and_eq_true, Option.all_eq_true_iff_get, beq_iff_eq]
  constructor
  · rintro ⟨hentity, huser⟩
    refine ⟨fun name hname => ?_, fun id hid => ?_⟩
    · simpa [hname] using (hentity (by simp [hname])).symm
    · simpa [hid] using (huser (by simp [hid])).symm
  · rintro ⟨hentity, huser⟩
    exact ⟨fun h => (hentity _ (Option.some_get h).symm).symm,
      fun h => (huser _ (Option.some_get h).symm).symm⟩

def cut {α : Type} (q : FeedQuery) (xs : List α) : List α :=
  match q.limit with
  | none => xs
  | some n => xs.take n

theorem cut_prefix {α : Type} (q : FeedQuery) (xs : List α) : q.cut xs <+: xs := by
  unfold cut
  split
  · exact List.prefix_rfl
  · exact List.take_prefix _ _

theorem map_cut {α β : Type} (q : FeedQuery) (f : α → β) (xs : List α) :
    (q.cut xs).map f = q.cut (xs.map f) := by
  unfold cut
  split
  · rfl
  · exact List.map_take

theorem take_prefix_cut {α : Type} {q : FeedQuery} {n : Nat} (hn : ∀ m, q.limit = some m → n ≤ m)
    (xs : List α) : xs.take n <+: q.cut xs := by
  unfold cut
  split
  · exact List.take_prefix n xs
  · rename_i m hm
    exact List.take_prefix_take_left (hn m hm)

end FeedQuery

variable {rs : List Record} {q : FeedQuery}

/-- How two records stand to each other, the newer one being the smaller. -/
def newestFirst (a b : Record) : Ordering := b.createdAt.compare a.createdAt

instance : Std.TransCmp newestFirst :=
  have hopposite : Std.TransCmp fun s t : Time.Instant => t.compare s := .opposite
  { eq_swap := hopposite.eq_swap
    isLE_trans := hopposite.isLE_trans }

/-- The record at `i` is newer than the one at `j`, or as new and came later. -/
def RanksAbove (rs : List Record) (i j : Fin rs.length) : Prop :=
  newestFirst (rs.get i) (rs.get j) = .lt ∨ newestFirst (rs.get i) (rs.get j) = .eq ∧ j < i

/-- The places of all records that a query selects, the highest first. -/
structure IsRanking (rs : List Record) (q : FeedQuery) (places : List (Fin rs.length)) : Prop where
  mem : ∀ i, i ∈ places ↔ q.Selects (rs.get i)
  ordered : places.Pairwise (RanksAbove rs)

theorem RanksAbove.asymm {i j : Fin rs.length} (h : RanksAbove rs i j) : ¬RanksAbove rs j i := by
  intro h'
  have hswap : newestFirst (rs.get j) (rs.get i) = (newestFirst (rs.get i) (rs.get j)).swap :=
    Std.OrientedCmp.eq_swap
  rcases h with h | ⟨h, hlt⟩ <;> rcases h' with h' | ⟨h', hlt'⟩
  all_goals simp only [hswap, h, Ordering.swap_lt, Ordering.swap_eq, reduceCtorEq] at h'
  exact absurd hlt (Fin.lt_asymm hlt')

theorem IsRanking.nodup {places : List (Fin rs.length)} (h : IsRanking rs q places) :
    places.Nodup :=
  h.ordered.imp fun {i j} hij => by
    rintro rfl
    exact hij.asymm hij

theorem IsRanking.mem_of_prefix {places top : List (Fin rs.length)} (h : IsRanking rs q places)
    (htop : top <+: places) {i j : Fin rs.length} (hj : j ∈ top) (hi : q.Selects (rs.get i))
    (hij : RanksAbove rs i j) : i ∈ top := by
  obtain ⟨rest, rfl⟩ := htop
  rcases List.mem_append.mp ((h.mem i).mpr hi) with hmem | hmem
  · exact hmem
  · exact absurd hij ((List.pairwise_append.mp h.ordered).2.2 j hj i hmem).asymm

theorem count_map_get_le {places : List (Fin rs.length)} (h : places.Nodup) (r : Record) :
    (places.map rs.get).count r ≤ rs.count r := by
  have hsub : places.Subperm (List.finRange rs.length) :=
    h.subperm fun i _ => List.mem_finRange i
  obtain ⟨chosen, hperm, hchosen⟩ := hsub
  calc (places.map rs.get).count r = (chosen.map rs.get).count r := (hperm.map _).count_eq r |>.symm
    _ ≤ ((List.finRange rs.length).map rs.get).count r := (hchosen.map _).count_le r
    _ = rs.count r := by rw [List.map_get_finRange]

theorem newestFirst_isLE (a b : Record) :
    (b.createdAt.compare a.createdAt != .gt) = (newestFirst a b).isLE := by
  unfold newestFirst
  cases b.createdAt.compare a.createdAt <;> rfl

theorem stablySorted_recent (rs : List Record) (q : FeedQuery) :
    StablySorted newestFirst (rs.reverse.filter q.admits) (recent rs { q with limit := none }) := by
  have hle : (fun a b : Record => b.createdAt.compare a.createdAt != .gt) =
      fun a b => (newestFirst a b).isLE := funext₂ newestFirst_isLE
  unfold recent
  rw [hle]
  exact stablySorted_mergeSort _

theorem exists_ranking (rs : List Record) (q : FeedQuery) :
    ∃ places, IsRanking rs q places ∧ recent rs { q with limit := none } = places.map rs.get := by
  have htrans : Std.TransCmp fun i j : Fin rs.length => newestFirst (rs.get i) (rs.get j) :=
    { eq_swap := Std.OrientedCmp.eq_swap
      isLE_trans := Std.TransCmp.isLE_trans }
  let latestFirst := (List.finRange rs.length).reverse.filter (q.admits ∘ rs.get)
  let places := latestFirst.mergeSort fun i j => (newestFirst (rs.get i) (rs.get j)).isLE
  have hsorted : StablySorted (fun i j => newestFirst (rs.get i) (rs.get j)) latestFirst places :=
    stablySorted_mergeSort latestFirst
  have hmem (i : Fin rs.length) : i ∈ places ↔ q.Selects (rs.get i) := by
    rw [hsorted.perm.mem_iff, ← FeedQuery.admits_iff]
    simp [latestFirst]
  have hlatest : latestFirst.Pairwise fun i j => j < i :=
    (List.pairwise_reverse.mpr (List.pairwise_lt_finRange rs.length)).filter _
  have hrecords : latestFirst.map rs.get = rs.reverse.filter q.admits := by
    calc latestFirst.map rs.get = ((List.finRange rs.length).reverse.map rs.get).filter q.admits :=
          List.filter_map.symm
      _ = rs.reverse.filter q.admits := by rw [List.map_reverse, List.map_get_finRange]
  refine ⟨places, ⟨hmem, hsorted.pairwise hlatest⟩, ?_⟩
  calc recent rs { q with limit := none }
      = (latestFirst.map rs.get).mergeSort fun a b => b.createdAt.compare a.createdAt != .gt := by
        rw [hrecords]
        rfl
    _ = places.map rs.get :=
        (List.map_mergeSort fun i _ j _ => (newestFirst_isLE (rs.get i) (rs.get j)).symm).symm

end Audit

namespace Crm.Book

open Audit (FeedQuery IsRanking RanksAbove)

/-- The feed is the records at the highest places of the ranking. What ranks above a record of the
feed and is selected is in the feed too, no record is there more often than the trail has it, and a
smaller limit gives the beginning of the same feed. -/
theorem recent_ranked (b : Book) (q : FeedQuery) {rs : List Audit.Record}
    (hrs : b.records = .ok rs) :
    ∃ places feed, IsRanking rs q places ∧
      b.recent q = .ok feed ∧ feed = (q.cut places).map rs.get ∧
      (∀ j ∈ q.cut places, ∀ i, q.Selects (rs.get i) → RanksAbove rs i j → i ∈ q.cut places) ∧
      (∀ r, feed.count r ≤ rs.count r) ∧
      ∀ n, (∀ m, q.limit = some m → n ≤ m) →
        ∃ shorter, b.recent { q with limit := some n } = .ok shorter ∧ shorter <+: feed := by
  obtain ⟨places, hranking, hall⟩ := Audit.exists_ranking rs q
  have hrecent (limit : Option Nat) : b.recent { q with limit := limit } =
      .ok ((({ q with limit := limit } : FeedQuery).cut places).map rs.get) := by
    rw [FeedQuery.map_cut, ← hall, recent, hrs]
    rfl
  have htop := q.cut_prefix places
  refine ⟨places, _, hranking, hrecent q.limit, rfl, ?_, ?_, ?_⟩
  · exact fun j hj i hi hij => hranking.mem_of_prefix htop hj hi hij
  · exact Audit.count_map_get_le (htop.sublist.nodup hranking.nodup)
  · exact fun n hn => ⟨_, hrecent (some n), (FeedQuery.take_prefix_cut hn places).map rs.get⟩

/-- Four records, three of them of one instant. Of one user and about deals are the first, which is
the newest, and the last two; the feed of two shows the first and the last. -/
theorem recent_ranked_tied :
    let early : Time.Instant := ⟨19844, 36000, 250000000⟩
    let late : Time.Instant := ⟨19844, 36000, 251000000⟩
    let record (id : Identifier) (targetEntity : String) (time : Time.Instant) : Audit.Record :=
      ⟨id, .create, targetEntity, ⟨7⟩, [], ⟨99⟩, time, time⟩
    let rs := [record ⟨1⟩ "Deal" late, record ⟨2⟩ "Task" early, record ⟨3⟩ "Deal" early,
      record ⟨4⟩ "Deal" early]
    let q : FeedQuery := ⟨some "Deal", some ⟨99⟩, some 2⟩
    let b : Book := ⟨.empty, .memory rs, .zero, [],
      ⟨fun n => ⟨BitVec.ofNat 128 n⟩, fun _ => late, 0, 0⟩⟩
    b.records = .ok rs ∧ ∃ places feed, IsRanking rs q places ∧ b.recent q = .ok feed ∧
      feed = (q.cut places).map rs.get ∧ feed.map (·.id) = [⟨1⟩, ⟨4⟩] := by
  intro early late record rs q b
  have hrecords : b.records = .ok rs := rfl
  obtain ⟨places, feed, hranking, hrecent, hfeed, -⟩ := recent_ranked b q hrecords
  refine ⟨hrecords, places, feed, hranking, hrecent, hfeed, ?_⟩
  have hids : (b.recent q).toOption.map (·.map (·.id)) = some [⟨1⟩, ⟨4⟩] := by cbv
  rw [hrecent] at hids
  exact Option.some.inj hids

end Crm.Book

end Clientele
