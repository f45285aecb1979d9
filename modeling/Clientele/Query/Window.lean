import Clientele.Json.Record

/-!
Pages of a result. A request may give an offset and a limit, and what is below zero counts as zero.
A window passes over its offset and, with a limit, ends so many documents later.
-/
set_option autoImplicit false

namespace Clientele.Query

def maxCount : Nat := 0xFFFFFFFFFFFFFFFF

/-- A sum of counts, which stops at the largest. -/
def addCounts (a b : Nat) : Nat := min (a + b) maxCount

structure Paging where
  offset : Option Int64
  limit : Option Int64
  deriving DecidableEq, Repr

def Paging.everything : Paging := ⟨none, none⟩

def Paging.ofJson? (v : Json) : Option Paging :=
  match v.slots? ["offset", "limit"] with
  | some [offset, limit] => do
    let offset ← Json.optional? Json.int64? offset
    let limit ← Json.optional? Json.int64? limit
    pure ⟨offset, limit⟩
  | _ => none

structure Window where
  offset : Nat
  limit : Option Nat
  deriving DecidableEq, Repr

def Window.stop (w : Window) : Option Nat := w.limit.map (addCounts w.offset)

structure LimitExceeded where
  requested : Nat
  max : Nat
  deriving DecidableEq, Repr

/-- A requested count, where what is below zero counts as zero. -/
def clamped (n : Int64) : Nat := n.toInt.toNat

def Paging.compile (p : Paging) (maxLimit : Nat) : Except LimitExceeded Window :=
  let offset := (p.offset.map clamped).getD 0
  match p.limit.map clamped with
  | none => .ok ⟨offset, none⟩
  | some limit => if maxLimit < limit then .error ⟨limit, maxLimit⟩ else .ok ⟨offset, some limit⟩

structure PageInfo where
  hasNext : Bool
  hasPrevious : Bool
  deriving DecidableEq, Repr

def Window.pageInfo (w : Window) (total : Nat) : PageInfo :=
  ⟨match w.stop with
    | none => false
    | some stop => stop < total, 0 < w.offset⟩

def PageInfo.toJson (p : PageInfo) : Json :=
  .obj [("hasNextPage", .bool p.hasNext), ("hasPreviousPage", .bool p.hasPrevious)]

def Window.toJson (w : Window) : Json :=
  .obj [("offset", .ofNat w.offset), ("limit", Json.orNull (w.limit.map .ofNat))]

end Clientele.Query
