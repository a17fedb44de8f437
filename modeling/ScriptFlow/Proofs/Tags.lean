import ScriptFlow.Proofs.Codec
import ScriptFlow.Proofs.Written

/-! The tags of actions that are read. A tag that is no text is kept as its text in a leaf, and that
text is never the tag of an action that holds others: so reading, writing and reading again gives
the action of the first reading. -/

namespace ScriptFlow

namespace Action

/-- Each of the types of the actions that hold others has a letter that no number has. -/
theorem exists_not_inNumber {t : String} (h : t ∈ controlTypes) :
    ∃ c ∈ t.toList, ¬ NumberStyle.InNumber c := by
  simp only [controlTypes, List.mem_cons, List.not_mem_nil, or_false] at h
  rcases h with rfl | rfl | rfl
  · exact ⟨'f', by decide, by simp [NumberStyle.InNumber]⟩
  · exact ⟨'f', by decide, by simp [NumberStyle.InNumber]⟩
  · exact ⟨'w', by decide, by simp [NumberStyle.InNumber]⟩

/-- None of them is written as a value other than a text. -/
theorem literal_ne_of_mem_controlTypes {t : String} (h : t ∈ controlTypes) {v : Json}
    (hv : ∀ s, v ≠ .str s) : v.literal ≠ t.toList := by
  have hnumber : ∀ cs : List Char, (∀ c ∈ cs, NumberStyle.InNumber c) → cs ≠ t.toList := by
    rintro cs hcs rfl
    obtain ⟨c, hc, hn⟩ := exists_not_inNumber h
    exact hn (hcs c hc)
  have hword : ∀ s ∈ ["None", "True", "False", "inf", "-inf", "nan"], s.toList ≠ t.toList := by
    intro s hs he
    have hnone : ∀ t ∈ controlTypes, t ∉ ["None", "True", "False", "inf", "-inf", "nan"] := by
      decide
    exact hnone t h (String.toList_inj.mp he ▸ hs)
  have hhead : ∀ c ∈ ['[', '\x7b'], ∀ cs : List Char, c :: cs ≠ t.toList := by
    intro c hc cs he
    simp only [controlTypes, List.mem_cons, List.not_mem_nil, or_false] at h hc
    rcases h with rfl | rfl | rfl <;> rcases hc with rfl | rfl <;> cases he
  cases v with
  | null => exact hword "None" (by simp)
  | bool b =>
    cases b with
    | false => exact hword "False" (by simp)
    | true => exact hword "True" (by simp)
  | int n =>
    exact hnumber _ (NumberStyle.inNumber_of_mem_signed fun c hc =>
      NumberStyle.inNumber_of_mem_decimalDigits hc)
  | float x =>
    rw [Json.literal, NumberStyle.float]
    split
    · exact hnumber _ (NumberStyle.inNumber_of_mem_signed
        (NumberStyle.inNumber_of_mem_decimal rfl))
    · next negative _ =>
      cases negative with
      | false => exact hword "inf" (by simp)
      | true => exact hword "-inf" (by simp)
    · exact hword "nan" (by simp)
  | str s => exact absurd rfl (hv s)
  | arr xs =>
    cases xs with
    | nil => exact hhead '[' (by simp) _
    | cons x xs => exact hhead '[' (by simp) _
  | obj fs =>
    cases fs with
    | nil => exact hhead '\x7b' (by simp) _
    | cons f fs => exact hhead '\x7b' (by simp) _

theorem text_not_mem_controlTypes {v : Json} (hv : ∀ s, v ≠ .str s) : v.text ∉ controlTypes := by
  intro hm
  have htext : v.text = String.ofList v.literal := by
    cases v with
    | str s => exact absurd rfl (hv s)
    | _ => rfl
  refine literal_ne_of_mem_controlTypes hm hv ?_
  rw [htext, String.toList_ofList]

theorem every_tagFits_ofTag {tag : String} {rest : Fields} {bodyOf : String → List Action}
    (hbody : ∀ key, ListEvery TagFits (bodyOf key)) : (ofTag tag rest bodyOf).Every TagFits := by
  unfold ofTag
  split
  · exact ⟨trivial, hbody "then", hbody "else"⟩
  split
  · exact ⟨trivial, hbody "do"⟩
  split
  · exact ⟨trivial, hbody "do"⟩
  · simp [Every, TagFits, controlTypes, *]

/-- The tags of all that is read fit. -/
theorem inherited_tagFits : Inherited (fun _ => True) TagFits where
  items _ _ _ := trivial
  fields _ _ _ := trivial
  scalar _ := by simp [ofScalar, Every, TagFits, controlTypes]
  object := by
    intro fs bodyOf _ hbody
    unfold ofFields
    dsimp only
    split
    · exact every_tagFits_ofTag hbody
    · simp [Every, TagFits, controlTypes]
    · next hstr _ => exact text_not_mem_controlTypes hstr

theorem ofJson_toJson_ofJson (v : Json) : ofJson (ofJson v).toJson = ofJson v :=
  (ofJson_toJson_iff _ (inherited_keysApart.every_ofJson v trivial)).mpr
    (inherited_tagFits.every_ofJson v trivial)

end Action

namespace Document

theorem ofJson_toJson_of_ofJson {v : Json} {d : Document} (h : ofJson v = .accepted d) :
    ofJson d.toJson = .accepted d := by
  obtain ⟨fs, vs, -, -, hcapabilities, -⟩ := exists_of_ofJson h
  refine (keysApart_of_ofJson h).ofJson_toJson_iff.mpr ?_
  intro c hc
  obtain ⟨w, -, hw⟩ := exists_of_forall₂_right hcapabilities c hc
  obtain ⟨gs, -, hgs⟩ := Capability.ofJson_eq_accepted.mp hw
  obtain ⟨-, -, -, hactions⟩ := Capability.ofFieldsWith_eq_accepted.mp hgs
  rw [hactions]
  exact Action.inherited_tagFits.every_listOfJson trivial

end Document

end ScriptFlow
