import Clientele.Proofs.Audit.Change

/-!
Which changes of a field are seen in a change set. A value that is told whole is seen to change as
its text does. A list of objects is told by the items that it has afterwards, so that it is seen to
change where one of their keys has another text than in its place before, and nowhere else.
-/
set_option autoImplicit false

namespace Clientele.Audit

variable {field other : String} {before : Option Json} {after : Json} {changes : List Change}

/-- Whether a name goes on from another, as the names of its items do. -/
def LeadsOn (field name : String) : Prop := ∃ rest, name = field ++ "." ++ rest

theorem leadsOn_iff : LeadsOn field other ↔ field.toList ++ ['.'] <+: other.toList := by
  constructor
  · rintro ⟨rest, rfl⟩
    exact ⟨rest.toList, by simp⟩
  · rintro ⟨rest, hrest⟩
    refine ⟨.ofList rest, String.toList_inj.mp ?_⟩
    rw [← hrest]
    simp

theorem Change.IsAbout.leadsOn {c : Change} (h : c.IsAbout field) :
    c.field = field ∨ LeadsOn field c.field := by
  obtain h | ⟨index, key, h⟩ := h
  · exact .inl h
  · exact .inr ⟨_, h.trans (Audit.itemName_eq field index key)⟩

theorem Change.IsAbout.eq_or_leadsOn {c : Change} (h : c.IsAbout field) (h' : c.IsAbout other) :
    other = field ∨ LeadsOn field other ∨ LeadsOn other field := by
  rcases h.leadsOn with hf | hf <;> rcases h'.leadsOn with ho | ho
  · exact .inl (ho.symm.trans hf)
  · exact .inr (.inr (hf ▸ ho))
  · exact .inr (.inl (ho ▸ hf))
  · rw [leadsOn_iff] at hf ho
    -- Both names with their dots begin the name of the change, so one of them begins the other.
    rcases List.prefix_or_prefix_of_prefix hf ho with hpre | hpre
    · rcases List.prefix_concat_iff.mp hpre with heq | hpre
      · exact .inl (String.toList_inj.mp (List.append_cancel_right heq).symm)
      · exact .inr (.inl (leadsOn_iff.mpr hpre))
    · rcases List.prefix_concat_iff.mp hpre with heq | hpre
      · exact .inl (String.toList_inj.mp (List.append_cancel_right heq))
      · exact .inr (.inr (leadsOn_iff.mpr hpre))

/-- A list of objects all of whose keys have the text that stood in their place. -/
def Unseen (before : Option Json) (after : Json) : Prop :=
  ∃ items, items ≠ [] ∧ after = .arr (items.map .obj) ∧
    ∀ (index : Nat) (item : Fields), items[index]? = some item → ∀ f ∈ item,
      itemBefore before index f.1 = render f.2

/-- All changes that are told of a field are none, though its text has changed, exactly if the
change is not seen. -/
theorem TellsField.forall_eq_iff (h : TellsField field before after changes)
    (hchanged : before.bind render ≠ render after) :
    (∀ c ∈ changes, c.before = c.after) ↔ Unseen before after := by
  cases h with
  | whole hwhole =>
    refine iff_of_false (fun h => hchanged (h _ (List.mem_singleton_self _))) ?_
    rintro ⟨items, hne, heq, -⟩
    exact hwhole items hne heq
  | items hne =>
    constructor
    · intro h
      refine ⟨_, hne, rfl, fun index item hitem f hf => ?_⟩
      exact h _ (List.mem_flatMap.mpr ⟨(item, index), List.mem_zipIdx_iff_getElem?.mpr hitem,
        List.mem_map_of_mem hf⟩)
    · rintro ⟨items, -, heq, hsame⟩ c hc
      obtain rfl := List.map_inj_right (fun _ _ => Json.obj.inj) |>.mp (Json.arr.inj heq)
      obtain ⟨⟨item, index⟩, hitem, hc⟩ := List.mem_flatMap.mp hc
      obtain ⟨f, hf, rfl⟩ := List.mem_map.mp hc
      exact hsame index item (List.mem_zipIdx_iff_getElem?.mp hitem) f hf

end Clientele.Audit
