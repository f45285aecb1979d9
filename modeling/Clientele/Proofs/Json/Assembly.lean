import Clientele.Json.Reader
import Clientele.Proofs.Json.Tokens
import Clientele.Proofs.Json.Value

/-!
The tokens of a value are put together to the value again, as long as it is not nested too deep.
So a value is what its compact text is read as.
-/
set_option autoImplicit false

namespace Clientele.Json

mutual

def depth : Json → Nat
  | .arr xs => depthOfItems xs + 1
  | .obj fs => depthOfFields fs + 1
  | _ => 0

def depthOfItems : List Json → Nat
  | [] => 0
  | x :: xs => max (depth x) (depthOfItems xs)

def depthOfFields : List (String × Json) → Nat
  | [] => 0
  | (_, v) :: fs => max (depth v) (depthOfFields fs)

end

def assemble (a : Assembly) (ts : List Token) : Option Assembly :=
  ts.foldlM (Assembly.step? fun _ => true) a

theorem assemble_append (a : Assembly) (ts us : List Token) :
    assemble a (ts ++ us) = (assemble a ts).bind fun a => assemble a us :=
  List.foldlM_append

theorem assemble_cons (a : Assembly) (t : Token) (ts : List Token) :
    assemble a (t :: ts) = (a.step? (fun _ => true) t).bind fun a => assemble a ts :=
  List.foldlM_cons

theorem assemble_firstItem (v : Json) (stack : List Frame) (ts : List Token) :
    assemble ⟨.firstItem, stack, false⟩ (v.tokensOf ++ ts) =
      assemble ⟨.value, .list [] :: stack, false⟩ (v.tokensOf ++ ts) := by
  cases v <;> rfl

/-- The tokens of a value are put together to the value, where there is room for its depth. -/
def Assembles (v : Json) : Prop :=
  ∀ stack : List Frame, v.depth + stack.length ≤ maxDepth →
    assemble ⟨.value, stack, false⟩ v.tokensOf = some ⟨.next v, stack, false⟩

theorem Assembles.append {v : Json} (h : Assembles v) {stack : List Frame}
    (hroom : v.depth + stack.length ≤ maxDepth) (ts : List Token) :
    assemble ⟨.value, stack, false⟩ (v.tokensOf ++ ts) = assemble ⟨.next v, stack, false⟩ ts := by
  rw [assemble_append, h stack hroom, Option.bind_some]

theorem assemble_items {x : Json} {xs : List Json} (h : ∀ y ∈ x :: xs, Assembles y)
    (done : List Json) (stack : List Frame)
    (hroom : depthOfItems (x :: xs) + (stack.length + 1) ≤ maxDepth) :
    assemble ⟨.value, .list done :: stack, false⟩
        (separatedTokens (itemTokens (x :: xs)) ++ [.closeList]) =
      some ⟨.next (.arr (done.reverse ++ x :: xs)), stack, false⟩ := by
  induction xs generalizing x done with
  | nil =>
    have hx : x.depth + (Frame.list done :: stack).length ≤ maxDepth := by
      simp only [depthOfItems] at hroom
      simp only [List.length_cons]
      omega
    rw [itemTokens, itemTokens, separatedTokens, (h x (by simp)).append hx, assemble_cons]
    simp [Assembly.step?, Assembly.next?, assemble]
  | cons y ys ih =>
    have hx : x.depth + (Frame.list done :: stack).length ≤ maxDepth := by
      simp only [depthOfItems] at hroom
      simp only [List.length_cons]
      omega
    have hys : depthOfItems (y :: ys) + (stack.length + 1) ≤ maxDepth := by
      simp only [depthOfItems] at hroom ⊢
      omega
    have htokens : separatedTokens (itemTokens (x :: y :: ys)) =
        x.tokensOf ++ .comma :: separatedTokens (itemTokens (y :: ys)) := rfl
    rw [htokens, List.append_assoc, (h x (by simp)).append hx, List.cons_append, assemble_cons]
    have hcomma : Assembly.step? (fun _ => true) ⟨.next x, .list done :: stack, false⟩ .comma =
        some ⟨.value, .list (x :: done) :: stack, false⟩ := rfl
    rw [hcomma, Option.bind_some, ih (fun z hz => h z (by simp [hz])) (x :: done) hys]
    simp

theorem assemble_key (k : String) (done : List (String × Json)) (stack : List Frame)
    (ts : List Token) :
    assemble ⟨.key done, stack, false⟩ (.text (some k) :: .colon :: ts) =
      assemble ⟨.value, .object done k :: stack, false⟩ ts := by
  simp [assemble_cons, Assembly.step?, Assembly.key?, Assembly.valueOr]

theorem assemble_fields {k : String} {v : Json} {fs : List (String × Json)}
    (h : ∀ f ∈ (k, v) :: fs, Assembles f.2) (done : List (String × Json)) (stack : List Frame)
    (hroom : depthOfFields ((k, v) :: fs) + (stack.length + 1) ≤ maxDepth) :
    assemble ⟨.key done, stack, false⟩
        (separatedTokens (fieldTokens ((k, v) :: fs)) ++ [.closeObject]) =
      some ⟨.next (.obj (done.reverse ++ (k, v) :: fs)), stack, false⟩ := by
  induction fs generalizing k v done with
  | nil =>
    have hv : v.depth + (Frame.object done k :: stack).length ≤ maxDepth := by
      simp only [depthOfFields] at hroom
      simp only [List.length_cons]
      omega
    rw [fieldTokens, fieldTokens, separatedTokens, List.cons_append, List.cons_append, assemble_key,
      (h (k, v) (by simp)).append hv, assemble_cons]
    simp [Assembly.step?, Assembly.next?, assemble]
  | cons f fs ih =>
    obtain ⟨k', v'⟩ := f
    have hv : v.depth + (Frame.object done k :: stack).length ≤ maxDepth := by
      simp only [depthOfFields] at hroom
      simp only [List.length_cons]
      omega
    have hfs : depthOfFields ((k', v') :: fs) + (stack.length + 1) ≤ maxDepth := by
      simp only [depthOfFields] at hroom ⊢
      omega
    have htokens : separatedTokens (fieldTokens ((k, v) :: (k', v') :: fs)) =
        .text (some k) :: .colon :: (v.tokensOf ++
          .comma :: separatedTokens (fieldTokens ((k', v') :: fs))) := rfl
    rw [htokens, List.cons_append, List.cons_append, assemble_key, List.append_assoc,
      (h (k, v) (by simp)).append hv, List.cons_append, assemble_cons]
    have hcomma : Assembly.step? (fun _ => true) ⟨.next v, .object done k :: stack, false⟩ .comma =
        some ⟨.key ((k, v) :: done), stack, false⟩ := rfl
    rw [hcomma, Option.bind_some, ih (fun f hf => h f (by simp [hf])) ((k, v) :: done) hfs]
    simp

theorem mayOpen_of_room {n : Nat} {stack : List Frame} {e : Expect}
    (h : n + 1 + stack.length ≤ maxDepth) : (Assembly.mk e stack false).mayOpen = true := by
  simp only [Assembly.mayOpen, Bool.false_or, decide_eq_true_eq]
  omega

theorem assembles (v : Json) : Assembles v := by
  induction v using induct with
  | null => exact fun _ _ => rfl
  | bool b => exact fun _ _ => rfl
  | num n => exact fun _ _ => rfl
  | str s => exact fun _ _ => rfl
  | arr xs ih =>
    intro stack hroom
    have hopen : Assembly.step? (fun _ => true) ⟨.value, stack, false⟩ .openList =
        some ⟨.firstItem, stack, false⟩ := by
      simp [Assembly.step?, Assembly.value?, mayOpen_of_room hroom]
    rw [tokensOf, assemble_cons, hopen, Option.bind_some]
    cases xs with
    | nil => rfl
    | cons x xs =>
      have hroom' : depthOfItems (x :: xs) + (stack.length + 1) ≤ maxDepth := by
        simp only [depth] at hroom
        omega
      refine Eq.trans ?_ (assemble_items ih [] stack hroom')
      cases xs with
      | nil => exact assemble_firstItem x stack _
      | cons y ys =>
        simp only [itemTokens, separatedTokens, List.append_assoc]
        exact assemble_firstItem x stack _
  | obj fs ih =>
    intro stack hroom
    have hopen : Assembly.step? (fun _ => true) ⟨.value, stack, false⟩ .openObject =
        some ⟨.firstKey, stack, false⟩ := by
      simp [Assembly.step?, Assembly.value?, mayOpen_of_room hroom]
    rw [tokensOf, assemble_cons, hopen, Option.bind_some]
    cases fs with
    | nil => rfl
    | cons f fs =>
      obtain ⟨k, v⟩ := f
      have hroom' : depthOfFields ((k, v) :: fs) + (stack.length + 1) ≤ maxDepth := by
        simp only [depth] at hroom
        omega
      refine Eq.trans ?_ (assemble_fields ih [] stack hroom')
      cases fs <;> rfl

theorem ofTokens?_tokensOf {v : Json} (hdepth : v.depth ≤ maxDepth) :
    ofTokens? (fun _ => true) v.tokensOf = some v := by
  have hv : assemble ⟨.value, [], false⟩ v.tokensOf = some ⟨.next v, [], false⟩ :=
    assembles v [] (by simpa using hdepth)
  unfold assemble at hv
  rw [ofTokens?, hv]
  rfl

theorem parseRaw?_compact {v : Json} (hdepth : v.depth ≤ maxDepth)
    (hnumbers : v.AllNumbers NumberReads) : parseRaw? v.compact = some v := by
  rw [parseRaw?, compact, String.toList_ofList, tokens?_compactChars hnumbers, Option.bind_some,
    ofTokens?_tokensOf hdepth]

end Clientele.Json
