import Clientele.Json.Token

/-!
Tokens are put together to a value with a stack of the lists and objects that are still open.
The stack may hold 127 of them. A reader that knows which keys of the outermost object it wants
passes over what stands under the others: it is held to the grammar alone, and neither the depth
nor a token without a value counts there.
-/
set_option autoImplicit false

namespace Clientele.Json

/-- A list or object that is open, its parts so far in reverse. -/
inductive Frame where
  | list (done : List Json)
  | object (done : List (String × Json)) (key : String)

inductive Expect where
  | value
  | firstItem
  | firstKey
  | key (done : List (String × Json))
  | colon (done : List (String × Json)) (key : String)
  | next (v : Json)

structure Assembly where
  expect : Expect
  stack : List Frame
  /-- Whether this stands under a key that is not wanted. -/
  skips : Bool

def maxDepth : Nat := 127

def Assembly.valueOr {α : Type} (a : Assembly) (any : α) (v : Option α) : Option α :=
  if a.skips then some (v.getD any) else v

def Assembly.mayOpen (a : Assembly) : Bool := a.skips || a.stack.length < maxDepth

def Assembly.value? (a : Assembly) : Token → Option Assembly
  | .text s => (a.valueOr "" s).map fun s => { a with expect := .next (.str s) }
  | .number n => (a.valueOr .zero n).map fun n => { a with expect := .next (.num n) }
  | .word v => some { a with expect := .next v }
  | .openList => if a.mayOpen then some { a with expect := .firstItem } else none
  | .openObject => if a.mayOpen then some { a with expect := .firstKey } else none
  | _ => none

def Assembly.key? (a : Assembly) (done : List (String × Json)) : Token → Option Assembly
  | .text k => (a.valueOr "" k).map fun k => { a with expect := .colon done k }
  | _ => none

def Assembly.next? (v : Json) (skips : Bool) : List Frame → Token → Option Assembly
  | .list done :: stack, .comma => some ⟨.value, .list (v :: done) :: stack, skips⟩
  | .list done :: stack, .closeList => some ⟨.next (.arr (v :: done).reverse), stack, skips⟩
  | .object done key :: stack, .comma =>
    some ⟨.key ((key, v) :: done), stack, skips && !stack.isEmpty⟩
  | .object done key :: stack, .closeObject =>
    some ⟨.next (.obj ((key, v) :: done).reverse), stack, skips⟩
  | _, _ => none

def Assembly.step? (wanted : String → Bool) (a : Assembly) (t : Token) : Option Assembly :=
  match a.expect, t with
  | .value, t => a.value? t
  | .firstItem, .closeList => some { a with expect := .next (.arr []) }
  | .firstItem, t => { a with stack := .list [] :: a.stack }.value? t
  | .firstKey, .closeObject => some { a with expect := .next (.obj []) }
  | .firstKey, t => a.key? [] t
  | .key done, t => a.key? done t
  | .colon done k, .colon =>
    some ⟨.value, .object done k :: a.stack, a.skips || (a.stack.isEmpty && !wanted k)⟩
  | .next v, t => Assembly.next? v a.skips a.stack t
  | _, _ => none

def Assembly.result? : Assembly → Option Json
  | ⟨.next v, [], _⟩ => some v
  | _ => none

def ofTokens? (wanted : String → Bool) (ts : List Token) : Option Json :=
  (ts.foldlM (Assembly.step? wanted) ⟨.value, [], false⟩).bind Assembly.result?

def parseRaw? (s : String) : Option Json := (tokens? s.toList).bind (ofTokens? fun _ => true)

/-- The value written by a text, with repeated keys kept. If it is an object, only what stands under
the given keys has the value that is written. -/
def parseFields? (names : List String) (s : String) : Option Json :=
  (tokens? s.toList).bind (ofTokens? names.contains)

def parse? (s : String) : Option Json := (parseRaw? s).map collapse

end Clientele.Json
