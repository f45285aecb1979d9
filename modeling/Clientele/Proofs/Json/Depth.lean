import Clientele.Proofs.Json.Assembly

/-!
Whatever is read from a text is nested no deeper than the reader allows. Its stack has room for
every value that is put together in it.
-/
set_option autoImplicit false

namespace Clientele.Json

theorem depthOfItems_le {xs : List Json} {n : Nat} :
    depthOfItems xs ≤ n ↔ ∀ x ∈ xs, x.depth ≤ n := by
  induction xs with
  | nil => simp [depthOfItems]
  | cons x xs ih => rw [depthOfItems, Nat.max_le, ih, List.forall_mem_cons]

theorem depthOfFields_le {fs : Fields} {n : Nat} :
    depthOfFields fs ≤ n ↔ ∀ f ∈ fs, f.2.depth ≤ n := by
  induction fs with
  | nil => simp [depthOfFields]
  | cons f fs ih => rw [depthOfFields, Nat.max_le, ih, List.forall_mem_cons]

def Token.IsFlat : Token → Prop
  | .word v => v.depth = 0
  | _ => True

theorem isFlat_of_wordToken? {cs : List Char} {t : Token} (h : wordToken? cs = some t) :
    t.IsFlat := by
  unfold wordToken? at h
  split_ifs at h <;> cases h <;> rfl

theorem isFlat_of_numberToken? {cs : List Char} {t : Token} (h : numberToken? cs = some t) :
    t.IsFlat := by
  obtain ⟨l, -, rfl⟩ := Option.map_eq_some_iff.mp h
  trivial

theorem isFlat_of_begin? {c : Char} {ts : List Token} {b : Begun} (h : begin? c = some (ts, b)) :
    ∀ t ∈ ts, t.IsFlat := by
  unfold begin? at h
  split_ifs at h <;> cases h <;> simp [Token.IsFlat]

theorem isFlat_of_feedText? {cs : Option (List Char)} {c : Char} {ts : List Token} {b : Begun}
    (h : feedText? cs c = some (ts, b)) : ∀ t ∈ ts, t.IsFlat := by
  unfold feedText? at h
  split_ifs at h <;> cases h <;> simp [Token.IsFlat]

theorem nil_of_feedEscape? {cs : Option (List Char)} {c : Char} {ts : List Token} {b : Begun}
    (h : feedEscape? cs c = some (ts, b)) : ts = [] := by
  unfold feedEscape? at h
  split at h
  · cases h
    rfl
  · obtain ⟨e, -, heq⟩ := Option.map_eq_some_iff.mp h
    cases heq
    rfl

theorem isFlat_of_feed? {b b' : Begun} {c : Char} {ts : List Token}
    (h : b.feed? c = some (ts, b')) : ∀ t ∈ ts, t.IsFlat := by
  -- A token that is completed comes before those that the character is.
  have hcons {t? : Option Token} (hflat : ∀ t, t? = some t → t.IsFlat)
      (h : (t?.bind fun t => (begin? c).map fun p => (t :: p.1, p.2)) = some (ts, b')) :
      ∀ t ∈ ts, t.IsFlat := by
    obtain ⟨t, ht, h⟩ := Option.bind_eq_some_iff.mp h
    obtain ⟨⟨us, b''⟩, hbegin, heq⟩ := Option.map_eq_some_iff.mp h
    cases heq
    exact List.forall_mem_cons.mpr ⟨hflat t ht, isFlat_of_begin? hbegin⟩
  have hnil {f : Nat → Begun} (h : ((hexValue? c).map fun d => (([] : List Token), f d)) =
      some (ts, b')) : ∀ t ∈ ts, t.IsFlat := by
    obtain ⟨d, -, heq⟩ := Option.map_eq_some_iff.mp h
    cases heq
    simp
  cases b with
  | none => exact isFlat_of_begin? h
  | word cs =>
    simp only [Begun.feed?] at h
    split at h
    · cases h
      simp
    · exact hcons (fun _ => isFlat_of_wordToken?) h
  | number cs =>
    simp only [Begun.feed?] at h
    split at h
    · cases h
      simp
    · exact hcons (fun _ => isFlat_of_numberToken?) h
  | text cs => exact isFlat_of_feedText? h
  | escape cs =>
    rw [nil_of_feedEscape? h]
    simp
  | unit cs digits value leading =>
    simp only [Begun.feed?] at h
    split at h
    · exact hnil h
    · exact hnil h
  | half cs leading =>
    simp only [Begun.feed?] at h
    split at h
    · cases h
      simp
    · exact isFlat_of_feedText? h
  | halfEscape cs leading =>
    simp only [Begun.feed?] at h
    split at h
    · cases h
      simp
    · rw [nil_of_feedEscape? h]
      simp

theorem isFlat_of_finish? {b : Begun} {ts : List Token} (h : b.finish? = some ts) :
    ∀ t ∈ ts, t.IsFlat := by
  cases b with
  | none =>
    cases h
    simp
  | word cs =>
    obtain ⟨t, ht, rfl⟩ := Option.map_eq_some_iff.mp h
    simpa using isFlat_of_wordToken? ht
  | number cs =>
    obtain ⟨t, ht, rfl⟩ := Option.map_eq_some_iff.mp h
    simpa using isFlat_of_numberToken? ht
  | _ => cases h

theorem isFlat_of_tokens? {b : Begun} {done ts : List Token} {cs : List Char}
    (hdone : ∀ t ∈ done, t.IsFlat) (h : b.tokens? done cs = some ts) : ∀ t ∈ ts, t.IsFlat := by
  induction cs generalizing b done with
  | nil =>
    obtain ⟨us, hus, rfl⟩ := Option.map_eq_some_iff.mp h
    have hfinish := isFlat_of_finish? hus
    intro t ht
    rcases List.mem_append.mp ht with ht | ht
    · exact hdone t (List.mem_reverse.mp ht)
    · exact hfinish t ht
  | cons c cs ih =>
    rw [Begun.tokens?] at h
    split at h
    · rename_i us b' hfeed
      have hus := isFlat_of_feed? hfeed
      refine ih (fun t ht => ?_) h
      rcases List.mem_append.mp ht with ht | ht
      · exact hus t (List.mem_reverse.mp ht)
      · exact hdone t ht
    · cases h

def Frame.depth : Frame → Nat
  | .list done => depthOfItems done
  | .object done _ => depthOfFields done

/-- The values in each frame fit in where they are. -/
def StackFits : List Frame → Prop
  | [] => True
  | f :: stack => f.depth + (stack.length + 1) ≤ maxDepth ∧ StackFits stack

def Expect.Fits (frames : Nat) : Expect → Prop
  | .value => True
  | .firstItem | .firstKey => frames + 1 ≤ maxDepth
  | .key done | .colon done _ => depthOfFields done + (frames + 1) ≤ maxDepth
  | .next v => v.depth + frames ≤ maxDepth

structure Assembly.Fits (a : Assembly) : Prop where
  reads : a.skips = false
  stack : StackFits a.stack
  expect : a.expect.Fits a.stack.length

theorem StackFits.length_le {stack : List Frame} (h : StackFits stack) :
    stack.length ≤ maxDepth := by
  cases stack with
  | nil => exact Nat.zero_le _
  | cons f stack =>
    have hf := h.1
    rw [List.length_cons]
    omega

namespace Assembly

variable {a a' : Assembly} {t : Token}

theorem Fits.value? (ht : t.IsFlat) (hreads : a.skips = false) (hstack : StackFits a.stack)
    (h : a.value? t = some a') : a'.Fits := by
  have hflat {v : Json} (hv : v.depth = 0) : Fits { a with expect := .next v } :=
    ⟨hreads, hstack, by rw [Expect.Fits, hv, Nat.zero_add]; exact hstack.length_le⟩
  have hopen (hmay : a.mayOpen) : a.stack.length + 1 ≤ maxDepth := by
    rw [mayOpen, hreads, Bool.false_or] at hmay
    exact of_decide_eq_true hmay
  cases t with
  | text s =>
    obtain ⟨s', -, rfl⟩ := Option.map_eq_some_iff.mp h
    exact hflat rfl
  | number n =>
    obtain ⟨n', -, rfl⟩ := Option.map_eq_some_iff.mp h
    exact hflat rfl
  | word v =>
    cases h
    exact hflat ht
  | openList | openObject =>
    simp only [Assembly.value?] at h
    split at h
    · rename_i hmay
      cases h
      exact ⟨hreads, hstack, hopen hmay⟩
    · cases h
  | _ => cases h

theorem Fits.key? {done : List (String × Json)} (hreads : a.skips = false)
    (hstack : StackFits a.stack) (hdone : depthOfFields done + (a.stack.length + 1) ≤ maxDepth)
    (h : a.key? done t = some a') : a'.Fits := by
  cases t with
  | text k =>
    obtain ⟨k', -, rfl⟩ := Option.map_eq_some_iff.mp h
    exact ⟨hreads, hstack, hdone⟩
  | _ => cases h

theorem Fits.next? {v : Json} {stack : List Frame} (hstack : StackFits stack)
    (hv : v.depth + stack.length ≤ maxDepth) (h : Assembly.next? v false stack t = some a') :
    a'.Fits := by
  unfold Assembly.next? at h
  split at h
  · rename_i done stack
    cases h
    have hroom := hstack.1
    refine ⟨rfl, ⟨?_, hstack.2⟩, trivial⟩
    simp only [Frame.depth, depthOfItems, List.length_cons] at hroom hv ⊢
    omega
  · rename_i done stack
    cases h
    refine ⟨rfl, hstack.2, ?_⟩
    have hitems : ∀ x ∈ v :: done, x.depth ≤ maxDepth - (stack.length + 1) := by
      rw [← depthOfItems_le]
      have hroom := hstack.1
      simp only [Frame.depth, depthOfItems, List.length_cons] at hroom hv ⊢
      omega
    have hreverse := depthOfItems_le.mpr fun x hx => hitems x (List.mem_reverse.mp hx)
    have hlength := hstack.length_le
    simp only [Expect.Fits, Json.depth, List.length_cons] at hlength ⊢
    omega
  · rename_i done key stack
    cases h
    have hroom := hstack.1
    refine ⟨rfl, hstack.2, ?_⟩
    simp only [Frame.depth, Expect.Fits, depthOfFields, List.length_cons] at hroom hv ⊢
    omega
  · rename_i done key stack
    cases h
    refine ⟨rfl, hstack.2, ?_⟩
    have hfields : ∀ f ∈ (key, v) :: done, f.2.depth ≤ maxDepth - (stack.length + 1) := by
      rw [← depthOfFields_le]
      have hroom := hstack.1
      simp only [Frame.depth, depthOfFields, List.length_cons] at hroom hv ⊢
      omega
    have hreverse := depthOfFields_le.mpr fun f hf => hfields f (List.mem_reverse.mp hf)
    have hlength := hstack.length_le
    simp only [Expect.Fits, Json.depth, List.length_cons] at hlength ⊢
    omega
  · cases h

theorem Fits.step? (ha : a.Fits) (ht : t.IsFlat) (h : a.step? (fun _ => true) t = some a') :
    a'.Fits := by
  obtain ⟨expect, stack, skips⟩ := a
  obtain ⟨rfl, hstack, hexpect⟩ := ha
  cases expect with
  | value => exact Fits.value? ht rfl hstack h
  | firstItem =>
    have hinside : StackFits (.list [] :: stack) :=
      ⟨by simpa [Frame.depth, depthOfItems, Expect.Fits] using hexpect, hstack⟩
    cases t with
    | closeList =>
      cases h
      exact ⟨rfl, hstack, by simpa [Expect.Fits, Json.depth, depthOfItems, Nat.add_comm] using hexpect⟩
    | _ => exact Fits.value? (a := ⟨.firstItem, .list [] :: stack, false⟩) ht rfl hinside h
  | firstKey =>
    have hinside : depthOfFields [] + (stack.length + 1) ≤ maxDepth := by
      simpa [depthOfFields, Expect.Fits] using hexpect
    cases t with
    | closeObject =>
      cases h
      exact ⟨rfl, hstack, by simpa [Expect.Fits, Json.depth, depthOfFields, Nat.add_comm] using hexpect⟩
    | text k => exact Fits.key? (t := .text k) rfl hstack hinside h
    | _ => cases h
  | key done => exact Fits.key? rfl hstack hexpect h
  | colon done k =>
    cases t with
    | colon =>
      cases h
      exact ⟨by simp, ⟨hexpect, hstack⟩, trivial⟩
    | _ => cases h
  | next v => exact Fits.next? hstack hexpect h

theorem Fits.foldlM {ts : List Token} (ha : a.Fits) (hts : ∀ t ∈ ts, t.IsFlat)
    (h : ts.foldlM (Assembly.step? fun _ => true) a = some a') : a'.Fits := by
  induction ts generalizing a with
  | nil =>
    cases h
    exact ha
  | cons t ts ih =>
    rw [List.forall_mem_cons] at hts
    rw [List.foldlM_cons] at h
    obtain ⟨a₁, hstep, h⟩ := Option.bind_eq_some_iff.mp h
    exact ih (ha.step? hts.1 hstep) hts.2 h

end Assembly

theorem depth_of_parseRaw? {s : String} {v : Json} (h : parseRaw? s = some v) :
    v.depth ≤ maxDepth := by
  obtain ⟨ts, hts, h⟩ := Option.bind_eq_some_iff.mp h
  obtain ⟨a, ha, hresult⟩ := Option.bind_eq_some_iff.mp h
  have hstart : Assembly.Fits ⟨.value, [], false⟩ := ⟨rfl, trivial, trivial⟩
  have hfits := hstart.foldlM (isFlat_of_tokens? (by simp) hts) ha
  unfold Assembly.result? at hresult
  split at hresult
  · cases hresult
    exact hfits.expect
  · cases hresult

/-- The tokens of a value are refused where there is no room for its depth. -/
def Overflows (v : Json) : Prop :=
  ∀ stack : List Frame, stack.length ≤ maxDepth → maxDepth < v.depth + stack.length →
    ∀ ts, assemble ⟨.value, stack, false⟩ (v.tokensOf ++ ts) = none

theorem assemble_items_eq_none {x : Json} {xs : List Json} (h : ∀ y ∈ x :: xs, Overflows y)
    (done : List Json) {stack : List Frame} (hopen : stack.length < maxDepth)
    (hdeep : maxDepth < depthOfItems (x :: xs) + (stack.length + 1)) (ts : List Token) :
    assemble ⟨.value, .list done :: stack, false⟩ (separatedTokens (itemTokens (x :: xs)) ++ ts) =
      none := by
  induction xs generalizing x done with
  | nil =>
    have hx : maxDepth < x.depth + (Frame.list done :: stack).length := by
      simpa [depthOfItems] using hdeep
    rw [itemTokens, itemTokens, separatedTokens]
    exact h x (by simp) (.list done :: stack) hopen hx ts
  | cons y ys ih =>
    have htokens : separatedTokens (itemTokens (x :: y :: ys)) =
        x.tokensOf ++ .comma :: separatedTokens (itemTokens (y :: ys)) := rfl
    rw [htokens, List.append_assoc]
    by_cases hx : x.depth + (Frame.list done :: stack).length ≤ maxDepth
    · have hys : maxDepth < depthOfItems (y :: ys) + (stack.length + 1) := by
        simp only [depthOfItems, List.length_cons] at hdeep hx ⊢
        omega
      have hcomma : Assembly.step? (fun _ => true) ⟨.next x, .list done :: stack, false⟩ .comma =
          some ⟨.value, .list (x :: done) :: stack, false⟩ := rfl
      rw [(assembles x).append hx, List.cons_append, assemble_cons, hcomma, Option.bind_some]
      exact ih (fun z hz => h z (by simp [hz])) (x :: done) hys
    · exact h x (by simp) (.list done :: stack) hopen (Nat.lt_of_not_le hx) _

theorem assemble_fields_eq_none {k : String} {v : Json} {fs : List (String × Json)}
    (h : ∀ f ∈ (k, v) :: fs, Overflows f.2) (done : List (String × Json)) {stack : List Frame}
    (hopen : stack.length < maxDepth)
    (hdeep : maxDepth < depthOfFields ((k, v) :: fs) + (stack.length + 1)) (ts : List Token) :
    assemble ⟨.key done, stack, false⟩ (separatedTokens (fieldTokens ((k, v) :: fs)) ++ ts) =
      none := by
  induction fs generalizing k v done with
  | nil =>
    have hv : maxDepth < v.depth + (Frame.object done k :: stack).length := by
      simpa [depthOfFields] using hdeep
    rw [fieldTokens, fieldTokens, separatedTokens, List.cons_append, List.cons_append, assemble_key]
    exact h (k, v) (by simp) (.object done k :: stack) hopen hv ts
  | cons f fs ih =>
    obtain ⟨k', v'⟩ := f
    have htokens : separatedTokens (fieldTokens ((k, v) :: (k', v') :: fs)) =
        .text (some k) :: .colon :: (v.tokensOf ++
          .comma :: separatedTokens (fieldTokens ((k', v') :: fs))) := rfl
    rw [htokens, List.cons_append, List.cons_append, assemble_key, List.append_assoc]
    by_cases hv : v.depth + (Frame.object done k :: stack).length ≤ maxDepth
    · have hfs : maxDepth < depthOfFields ((k', v') :: fs) + (stack.length + 1) := by
        simp only [depthOfFields, List.length_cons] at hdeep hv ⊢
        omega
      have hcomma : Assembly.step? (fun _ => true) ⟨.next v, .object done k :: stack, false⟩
          .comma = some ⟨.key ((k, v) :: done), stack, false⟩ := rfl
      rw [(assembles v).append hv, List.cons_append, assemble_cons, hcomma, Option.bind_some]
      exact ih (fun g hg => h g (by simp [hg])) ((k, v) :: done) hfs
    · exact h (k, v) (by simp) (.object done k :: stack) hopen (Nat.lt_of_not_le hv) _

theorem overflows (v : Json) : Overflows v := by
  induction v using induct with
  | arr xs ih =>
    intro stack hle hdeep ts
    rw [tokensOf, List.cons_append, assemble_cons, List.append_assoc]
    by_cases hopen : stack.length < maxDepth
    · have hfirst : Assembly.step? (fun _ => true) ⟨.value, stack, false⟩ .openList =
          some ⟨.firstItem, stack, false⟩ := by
        simp [Assembly.step?, Assembly.value?, Assembly.mayOpen, hopen]
      rw [hfirst, Option.bind_some]
      cases xs with
      | nil =>
        simp only [depth, depthOfItems] at hdeep
        omega
      | cons x xs =>
        have hdeep' : maxDepth < depthOfItems (x :: xs) + (stack.length + 1) := by
          simp only [depth] at hdeep
          omega
        refine Eq.trans ?_ (assemble_items_eq_none ih [] hopen hdeep' ([.closeList] ++ ts))
        cases xs with
        | nil => exact assemble_firstItem x stack _
        | cons y ys =>
          simp only [itemTokens, separatedTokens, List.append_assoc]
          exact assemble_firstItem x stack _
    · have hfull : Assembly.step? (fun _ => true) ⟨.value, stack, false⟩ .openList = none := by
        simp [Assembly.step?, Assembly.value?, Assembly.mayOpen, hopen]
      rw [hfull, Option.bind_none]
  | obj fs ih =>
    intro stack hle hdeep ts
    rw [tokensOf, List.cons_append, assemble_cons, List.append_assoc]
    by_cases hopen : stack.length < maxDepth
    · have hfirst : Assembly.step? (fun _ => true) ⟨.value, stack, false⟩ .openObject =
          some ⟨.firstKey, stack, false⟩ := by
        simp [Assembly.step?, Assembly.value?, Assembly.mayOpen, hopen]
      rw [hfirst, Option.bind_some]
      cases fs with
      | nil =>
        simp only [depth, depthOfFields] at hdeep
        omega
      | cons f fs =>
        obtain ⟨k, v⟩ := f
        have hdeep' : maxDepth < depthOfFields ((k, v) :: fs) + (stack.length + 1) := by
          simp only [depth] at hdeep
          omega
        refine Eq.trans ?_ (assemble_fields_eq_none ih [] hopen hdeep' ([.closeObject] ++ ts))
        cases fs <;> rfl
    · have hfull : Assembly.step? (fun _ => true) ⟨.value, stack, false⟩ .openObject = none := by
        simp [Assembly.step?, Assembly.value?, Assembly.mayOpen, hopen]
      rw [hfull, Option.bind_none]
  | _ =>
    intro stack hle hdeep ts
    simp only [depth] at hdeep
    omega

theorem ofTokens?_tokensOf_eq_none {v : Json} (h : maxDepth < v.depth) :
    ofTokens? (fun _ => true) v.tokensOf = none := by
  have hv := overflows v [] (Nat.zero_le _) h []
  rw [List.append_nil, assemble] at hv
  rw [ofTokens?, hv, Option.bind_none]

end Clientele.Json
