import Clientele.Proofs.Json.Printer
import Clientele.Proofs.Json.Storable
import Clientele.Proofs.StableSort
import Clientele.Telemetry.Line

/-!
Lines of the log are read back. Every character is escaped in a way that strings can be read in, and
none of the escapes has a line feed in it, so that a line is one object on one line whatever event
and fields say. The fields stand in it by name, and in no other order that they may have come in.
-/
set_option autoImplicit false

namespace Clientele.Telemetry

open Json (Reads separated tokensOf)

theorem isEscape_escapeChar : Json.IsEscape escapeChar := by
  intro c cs rest done
  unfold escapeChar
  split_ifs with hquote hback hn hr ht hcontrol
  · subst hquote; rfl
  · subst hback; rfl
  · subst hn; rfl
  · subst hr; rfl
  · subst ht; rfl
  · have hc : c.toNat < 160 := by
      simp only [isControl, Bool.or_eq_true, Bool.and_eq_true, decide_eq_true_eq] at hcontrol
      omega
    exact Json.tokens?_hexEscape cs rest done (by omega)
  · have hlow : ¬c.toNat < 32 := by
      intro hlow
      simp [isControl, hlow] at hcontrol
    exact Json.tokens?_raw cs rest done hquote hback hlow

theorem reads_quoted (s : String) : Reads (quoted s) [.text (some s)] := isEscape_escapeChar.reads s

theorem le_toNat_of_mem_escapeChar {c : Char} : ∀ d ∈ escapeChar c, 32 ≤ d.toNat := by
  have hslash : 32 ≤ '\\'.toNat := by decide
  unfold escapeChar
  split_ifs with hquote hback hn hr ht hcontrol
  iterate 5 exact Json.le_toNat_of_mem_pair hslash (by decide)
  · simp [Json.hexEscape, Json.le_toNat_hexDigit]
  · intro d hd
    rw [List.mem_singleton.mp hd]
    by_contra hlow
    simp [isControl, Nat.not_le.mp hlow] at hcontrol

theorem le_toNat_of_mem_quoted (s : String) : ∀ c ∈ quoted s, 32 ≤ c.toNat := by
  intro c hc
  simp only [quoted, List.mem_cons, List.mem_append, List.mem_flatMap, List.not_mem_nil,
    or_false] at hc
  rcases hc with rfl | ⟨d, -, hd⟩ | rfl
  · decide
  · exact le_toNat_of_mem_escapeChar c hd
  · decide

def pairChars (f : String × String) : List Char := quoted f.1 ++ ':' :: quoted f.2

/-- The fields of a line: the event, its severity, and what else there is to say, by name. -/
def lineFields (severity : Severity) (event : String) (fields : List (String × String)) :
    List (String × String) :=
  ("event", event) :: ("severity", severity.name) :: sortFields fields

def textFields (fs : List (String × String)) : Fields := fs.map fun f => (f.1, .str f.2)

theorem reads_pairChars (f : String × String) :
    Reads (pairChars f) [.text (some f.1), .colon, .text (some f.2)] := by
  have hcolon : Json.begin? ':' = some ([.colon], .none) := rfl
  exact (reads_quoted f.1).append (Reads.begin hcolon (reads_quoted f.2)) ⟨rfl, rfl⟩ (by simp)

theorem reads_pairs (fs : List (String × String)) :
    List.Forall₂ Reads (fs.map pairChars) (Json.fieldTokens (textFields fs)) := by
  induction fs with
  | nil => exact .nil
  | cons f fs ih => exact .cons (reads_pairChars f) ih

theorem separated_cons (sep p : List Char) (ps : List (List Char)) :
    separated sep (p :: ps) = p ++ ps.flatMap (sep ++ ·) := by
  induction ps generalizing p with
  | nil => simp [separated]
  | cons q ps ih =>
    have hstep : separated sep (p :: q :: ps) = p ++ sep ++ separated sep (q :: ps) := rfl
    rw [hstep, ih, List.flatMap_cons, List.append_assoc, List.append_assoc]

variable (severity : Severity) (event : String) (fields : List (String × String))

def bodyChars : List Char :=
  '\x7b' :: (separated [','] ((lineFields severity event fields).map pairChars) ++ ['\x7d'])

theorem lineChars_eq : lineChars severity event fields = bodyChars severity event fields ++ ['\n'] := by
  have hfields : (sortFields fields).flatMap fieldChars =
      ((sortFields fields).map pairChars).flatMap ([','] ++ ·) := by
    rw [List.flatMap_map]
    rfl
  rw [lineChars, hfields, bodyChars, lineFields, List.map_cons, List.map_cons, separated_cons,
    List.flatMap_cons]
  simp [pairChars, fieldChars]

theorem lineFeed_not_mem_bodyChars : '\n' ∉ bodyChars severity event fields := by
  have hpair (f : String × String) : ∀ c ∈ pairChars f, 32 ≤ c.toNat := by
    simp only [pairChars, List.forall_mem_append, List.forall_mem_cons]
    exact ⟨le_toNat_of_mem_quoted f.1, by decide, le_toNat_of_mem_quoted f.2⟩
  have hseparated (fs : List (String × String)) :
      ∀ c ∈ separated [','] (fs.map pairChars), 32 ≤ c.toNat := by
    cases fs with
    | nil => simp [separated]
    | cons f fs =>
      rw [List.map_cons, separated_cons, List.forall_mem_append]
      refine ⟨hpair f, fun c hc => ?_⟩
      obtain ⟨p, hp, hc⟩ := List.mem_flatMap.mp hc
      obtain ⟨g, -, rfl⟩ := List.mem_map.mp hp
      rcases List.mem_cons.mp hc with rfl | hc
      · decide
      · exact hpair g c hc
  have hbody : ∀ c ∈ bodyChars severity event fields, 32 ≤ c.toNat := by
    simp only [bodyChars, List.forall_mem_append, List.forall_mem_cons]
    exact ⟨by decide, hseparated _, by decide, by simp⟩
  exact fun hmem => absurd (hbody _ hmem) (by decide)

theorem tokens?_lineChars : Json.tokens? (lineChars severity event fields) =
    some (tokensOf (.obj (textFields (lineFields severity event fields)))) := by
  have hopen : Json.begin? '\x7b' = some ([.openObject], .none) := rfl
  have hclose : Json.begin? '\x7d' = some ([.closeObject], .none) := rfl
  have hfeed : Json.begin? '\n' = some ([], .none) := rfl
  have hend : Reads ['\x7d', '\n'] [.closeObject] :=
    Reads.begin hclose (Reads.begin hfeed Json.reads_nil)
  have hline : Reads (lineChars severity event fields)
      (tokensOf (.obj (textFields (lineFields severity event fields)))) := by
    rw [lineChars_eq, bodyChars, List.cons_append, List.append_assoc]
    exact Reads.begin hopen (Reads.separated (by simp) (reads_pairs _) hend ⟨rfl, rfl⟩ (by simp))
  have hread := hline [] [] trivial
  simpa [Json.tokens?, Json.Begun.tokens?, Json.Begun.finish?] using hread

variable {fields}

theorem parse?_line (hkeys : ((lineFields severity event fields).map (·.1)).Nodup) :
    Json.parse? (line severity event fields) =
      some (.obj (textFields (lineFields severity event fields))) := by
  have htexts : ∀ f ∈ textFields (lineFields severity event fields), f.2.isScalar := by
    intro f hf
    obtain ⟨g, -, rfl⟩ := List.mem_map.mp hf
    rfl
  have hflat : (Json.obj (textFields (lineFields severity event fields))).depth ≤ Json.maxDepth := by
    have hfields : Json.depthOfFields (textFields (lineFields severity event fields)) ≤ 0 :=
      Json.depthOfFields_le.mpr fun f hf => Nat.le_of_eq (Json.depth_of_isScalar (htexts f hf))
    rw [Json.depth, Nat.le_zero.mp hfields]
    decide
  have hnodup : (textFields (lineFields severity event fields)).keys.Nodup := by
    simpa [textFields, Fields.keys, Function.comp_def] using hkeys
  have hcollapse := Json.collapse_obj_eq_self.mpr
    ⟨hnodup, fun f hf => Json.collapse_of_isScalar (htexts f hf)⟩
  rw [Json.parse?, Json.parseRaw?, line, String.toList_ofList, tokens?_lineChars, Option.bind_some,
    Json.ofTokens?_tokensOf hflat, Option.map_some, hcollapse]

theorem sortFields_perm (fields : List (String × String)) : (sortFields fields).Perm fields :=
  List.mergeSort_perm _ _

theorem pairwise_sortFields (hkeys : (fields.map (·.1)).Nodup) :
    (sortFields fields).Pairwise fun f g => f.1 < g.1 := by
  have hne : (sortFields fields).Pairwise fun f g => f.1 ≠ g.1 :=
    List.pairwise_map.mp (((sortFields_perm fields).map _).nodup_iff.mpr hkeys)
  refine ((pairwise_mergeSort_le (·.1) fields).and hne).imp fun {f g} h => ?_
  exact String.not_le.mp fun hle => h.2 (String.le_antisymm h.1 hle)

theorem sortFields_congr {fields' : List (String × String)} (hkeys : (fields.map (·.1)).Nodup)
    (h : fields'.Perm fields) : sortFields fields' = sortFields fields := by
  have hperm : (sortFields fields').Perm (sortFields fields) :=
    (sortFields_perm fields').trans (h.trans (sortFields_perm fields).symm)
  have hkeys' : (fields'.map (·.1)).Nodup := (h.map _).nodup_iff.mpr hkeys
  exact hperm.eq_of_pairwise (fun f g _ _ hfg hgf => absurd hgf (String.lt_asymm hfg))
    (pairwise_sortFields hkeys') (pairwise_sortFields hkeys)

/-- A line of fields with distinct names, none of which is that of the event or of the severity, has
its line feed at its end and nowhere else. It is read as the object of the event, the severity and
the fields by name, each with the text that was given, and it does not depend on the order of the
fields. -/
theorem line_faithful (hkeys : (fields.map (·.1)).Nodup)
    (hreserved : ∀ f ∈ fields, f.1 ≠ "event" ∧ f.1 ≠ "severity") :
    (∃ body, (line severity event fields).toList = body ++ ['\n'] ∧ '\n' ∉ body) ∧
    (∃ sorted : List (String × String), sorted.Perm fields ∧
      sorted.Pairwise (fun f g => f.1 < g.1) ∧
      Json.parse? (line severity event fields) = some (.obj (("event", .str event) ::
        ("severity", .str severity.name) :: sorted.map fun f => (f.1, .str f.2)))) ∧
    ∀ fields' : List (String × String), fields'.Perm fields →
      line severity event fields' = line severity event fields := by
  have hnodup : ((lineFields severity event fields).map (·.1)).Nodup := by
    have hsorted : ((sortFields fields).map (·.1)).Nodup :=
      ((sortFields_perm fields).map _).nodup_iff.mpr hkeys
    have hmem : ∀ f ∈ sortFields fields, f.1 ≠ "event" ∧ f.1 ≠ "severity" := fun f hf =>
      hreserved f ((sortFields_perm fields).mem_iff.mp hf)
    simp only [lineFields, List.map_cons, List.nodup_cons, List.mem_cons, List.mem_map]
    refine ⟨?_, ?_, hsorted⟩
    · rintro (h | ⟨f, hf, h⟩)
      · exact absurd h (by decide)
      · exact (hmem f hf).1 h
    · rintro ⟨f, hf, h⟩
      exact (hmem f hf).2 h
  refine ⟨⟨bodyChars severity event fields, ?_, lineFeed_not_mem_bodyChars severity event fields⟩,
    ⟨sortFields fields, sortFields_perm fields, pairwise_sortFields hkeys,
      parse?_line severity event hnodup⟩, fun fields' h => ?_⟩
  · rw [line, String.toList_ofList, lineChars_eq]
  · rw [line, line, lineChars, lineChars, sortFields_congr hkeys h]

theorem line_faithful_controls :
    let text : String := "\"\\\x07\x7f\u0085"
    let fields : List (String × String) := [("zeta", text), ("al\npha", "é")]
    (fields.map (·.1)).Nodup ∧ (∀ f ∈ fields, f.1 ≠ "event" ∧ f.1 ≠ "severity") ∧
      line .warn "A\tB" fields =
        "\x7b\"event\":\"A\\tB\",\"severity\":\"WARN\"," ++
          "\"al\\npha\":\"é\",\"zeta\":\"\\\"\\\\\\u0007\\u007f\\u0085\"\x7d\n" ∧
      (∃ body, (line .warn "A\tB" fields).toList = body ++ ['\n'] ∧ '\n' ∉ body) ∧
      Json.parse? (line .warn "A\tB" fields) = some (.obj [("event", .str "A\tB"),
        ("severity", .str "WARN"), ("al\npha", .str "é"), ("zeta", .str text)]) ∧
      line .warn "A\tB" fields.reverse = line .warn "A\tB" fields := by
  intro text fields
  have hkeys : (fields.map (·.1)).Nodup := by decide
  have hreserved : ∀ f ∈ fields, f.1 ≠ "event" ∧ f.1 ≠ "severity" := by decide
  obtain ⟨hfeed, ⟨sorted, hperm, hsorted, hparse⟩, hcongr⟩ :=
    line_faithful .warn "A\tB" hkeys hreserved
  have hswapped (fs : List (String × String)) (hperm : fs.Perm fields)
      (hsorted : fs.Pairwise fun f g => f.1 < g.1) : fs = [("al\npha", "é"), ("zeta", text)] :=
    hperm.trans (.swap _ _ _) |>.eq_of_pairwise
      (fun f g _ _ hfg hgf => absurd hgf (String.lt_asymm hfg)) hsorted (by decide)
  have htext : line .warn "A\tB" fields =
      "\x7b\"event\":\"A\\tB\",\"severity\":\"WARN\"," ++
        "\"al\\npha\":\"é\",\"zeta\":\"\\\"\\\\\\u0007\\u007f\\u0085\"\x7d\n" := by
    rw [line, lineChars, hswapped _ (sortFields_perm fields) (pairwise_sortFields hkeys)]
    decide +kernel
  rw [hswapped sorted hperm hsorted] at hparse
  exact ⟨hkeys, hreserved, htext, hfeed, hparse, hcongr _ fields.reverse_perm⟩

end Clientele.Telemetry
