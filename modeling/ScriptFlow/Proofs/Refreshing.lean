import ScriptFlow.Edit
import ScriptFlow.Proofs.Saved

/-! Refreshing a drawn node. What a refresh shows of a configuration is what is drawn of it: the
label and the note are written in their places, and a note that is shown is read back as it is. So
the node of a leaf, refreshed after the leaf was changed, is the node of the changed leaf. -/

namespace ScriptFlow

/-! The text of a value that holds is not empty. -/

namespace NumberStyle

theorem signed_ne_nil {negative : Bool} {cs : List Char} (h : cs ≠ []) : signed negative cs ≠ [] := by
  cases negative
  · exact h
  · exact List.cons_ne_nil _ _

theorem decimal_ne_nil (st : NumberStyle) (d : Decimal) : st.decimal d ≠ [] := by
  unfold decimal
  dsimp only
  split
  · exact List.cons_ne_nil _ _
  split
  · unfold positional
    split <;> simp
  split
  · exact List.cons_ne_nil _ _
  · exact List.cons_ne_nil _ _
  · next hnil => exact absurd hnil Nat.toDigits_ne_nil

end NumberStyle

namespace Json

theorem literal_ne_nil (v : Json) : v.literal ≠ [] := by
  cases v with
  | null => simp [literal]
  | bool b => cases b <;> simp [literal]
  | int n => exact NumberStyle.signed_ne_nil Nat.toDigits_ne_nil
  | float x =>
    rw [literal, NumberStyle.float]
    split
    · exact NumberStyle.signed_ne_nil (NumberStyle.decimal_ne_nil _ _)
    · exact NumberStyle.signed_ne_nil (by simp [labelNumberStyle])
    · simp [labelNumberStyle]
  | str s => simp [literal, Text.literal, Text.literalChars]
  | arr xs => cases xs <;> simp [literal]
  | obj fs => cases fs <;> simp [literal]

theorem text_ne_empty {v : Json} (h : v.truthy = true) : v.text ≠ "" := by
  have hlist : ∀ cs : List Char, cs ≠ [] → String.ofList cs ≠ "" := by
    intro cs hcs hs
    exact hcs (by simpa using congrArg String.toList hs)
  cases v with
  | str s => simpa [truthy, text] using h
  | _ => exact hlist _ (literal_ne_nil _)

end Json

namespace Fields

/-- Changes that leave the first key alone are written behind it. -/
theorem update_cons {f : String × Json} {fs changes : Fields} (h : ∀ c ∈ changes, c.1 ≠ f.1) :
    update (f :: fs) changes = f :: update fs changes := by
  unfold update
  induction changes generalizing fs with
  | nil => rfl
  | cons c changes ih =>
    have hc : f.1 ≠ c.1 := (h c List.mem_cons_self).symm
    rw [List.foldl_cons, List.foldl_cons, set, if_neg hc]
    exact ih fun c hc => h c (List.mem_cons_of_mem _ hc)

theorem value_update {fs changes : Fields} {key : String} (h : ∀ c ∈ changes, c.1 ≠ key) :
    (update fs changes).value key = fs.value key := by
  unfold update
  induction changes generalizing fs with
  | nil => rfl
  | cons c changes ih =>
    have hc : key ≠ c.1 := (h c List.mem_cons_self).symm
    rw [List.foldl_cons, ih fun c hc => h c (List.mem_cons_of_mem _ hc), value,
      get?_set_of_ne _ _ hc]
    rfl

end Fields

namespace Note

/-- A note is read back from what is shown of it. -/
theorem refresh?_shown {n : Note} (hc : n.content ≠ "") (config config' : Fields) :
    refresh? (.obj (n.shown config)) config' = some (.accepted (n.shown config')) := by
  have htruthy : (Json.str n.content).truthy = true := by simpa [Json.truthy] using hc
  have hread : readDigest ((n.digest.map Json.str).getD .null) = .accepted n.digest := by
    cases n.digest <;> rfl
  simp only [refresh?, Json.fields?, Option.bind_some, ofPayload?, content_shown, digest_shown,
    htruthy, if_true, hread, Checked.under, Checked.map, Option.map_some, Json.text]

theorem content_ne_empty {config : Fields} {n : Note} (h : ofConfig? config = some (.accepted n)) :
    n.content ≠ "" := by
  obtain ⟨payload, -, hp⟩ := Option.bind_eq_some_iff.mp h
  unfold ofPayload? at hp
  dsimp only at hp
  split at hp
  · next ht =>
    obtain ⟨digest, -, hn⟩ := Checked.map_eq_accepted.mp (Option.some.inj hp)
    rw [← hn]
    exact Json.text_ne_empty ht
  · cases hp

end Note

/-- The label is written in its place, in front of all else that is shown. -/
theorem Spot.presentation_set_label (spot : Spot) (stem type : String)
    (config config' shown : Fields) :
    (spot.presentation stem type config ++ shown).set "label" (.str (label type config')) =
      spot.presentation stem type config' ++ shown := by
  simp [presentation, Fields.set]

namespace Node

variable {n : Node} {shown : Fields}

theorem refresh_of_none (hn : n.isEntry = false)
    (hlabel : n.presentation.set "label" (.str (label n.actionType n.config)) = shown)
    (hnote : Note.refresh? (shown.value "note") n.config = none) :
    n.refresh = .ok { n with
      inputs := Variables.inputs n.config
      outputs := Variables.outputs n.actionType n.config
      presentation := shown } := by
  subst hlabel
  simp [refresh, hn, hnote]

theorem refresh_of_some (hn : n.isEntry = false)
    (hlabel : n.presentation.set "label" (.str (label n.actionType n.config)) = shown)
    {note : Fields} (hnote : Note.refresh? (shown.value "note") n.config = some (.accepted note)) :
    n.refresh = .ok { n with
      inputs := Variables.inputs n.config
      outputs := Variables.outputs n.actionType n.config
      presentation := shown.set "note" (.obj note) } := by
  subst hlabel
  simp [refresh, hn, hnote, Checked.orFault, Checked.toExcept, bind, Except.bind]

/-- A node that shows an earlier configuration with the same note is drawn anew. -/
theorem refresh_eq {spot : Spot} {stem : String} {config shown' : Fields} (hn : n.isEntry = false)
    (hp : n.presentation = spot.presentation stem n.actionType config ++ shown)
    (hsame : Note.ofConfig? n.config = Note.ofConfig? config)
    (hshown : shownNote config = .ok shown) (hshown' : shownNote n.config = .ok shown') :
    n.refresh = .ok { n with
      inputs := Variables.inputs n.config
      outputs := Variables.outputs n.actionType n.config
      presentation := spot.presentation stem n.actionType n.config ++ shown' } := by
  have hlabel := spot.presentation_set_label stem n.actionType config n.config shown
  rw [← hp] at hlabel
  have hnote : (spot.presentation stem n.actionType n.config ++ shown).value "note" =
      shown.value "note" := by
    rw [Fields.value, Fields.get?_append, get?_presentation, Option.none_or, Fields.value]
  rw [shownNote_eq_ok] at hshown hshown'
  rcases hshown with ⟨hnone, rfl⟩ | ⟨note, hsome, rfl⟩
  · simp only [hsame, hnone, true_and, reduceCtorEq, false_and, exists_false, or_false] at hshown'
    subst hshown'
    refine refresh_of_none hn hlabel ?_
    rw [hnote]
    rfl
  · simp only [hsame, hsome, reduceCtorEq, false_and, false_or, Option.some.injEq,
      Checked.accepted.injEq, exists_eq_left'] at hshown'
    subst hshown'
    have hrefresh : Note.refresh? ((spot.presentation stem n.actionType n.config ++
        [("note", Json.obj (note.shown config))]).value "note") n.config =
          some (.accepted (note.shown n.config)) := by
      rw [hnote]
      exact Note.refresh?_shown (Note.content_ne_empty hsome) _ _
    rw [refresh_of_some hn hlabel hrefresh, Fields.set_append (get?_presentation _ _ _ _)]
    rfl

end Node

section

variable {stem : String} {k : Nat} {spot : Spot} {t : String} {fields changes : Fields}

/-- The node of a leaf, refreshed after the leaf was changed, is the node of the changed leaf. -/
theorem refresh_of_node {n : Node} (hn : (Item.action k (.leaf t fields) spot).node stem = .ok n)
    (hkeys : ∀ c ∈ changes, c.1 ≠ "type" ∧ c.1 ≠ noteKey) : ∃ n',
      (Item.action k (.leaf t (fields.update changes)) spot).node stem = .ok n' ∧
        ∀ position, ({ n with config := n.config.update changes, position } : Node).refresh =
          .ok { n' with position } := by
  have hconfig : (Action.leaf t fields).config.update changes =
      (Action.leaf t (fields.update changes)).config :=
    Fields.update_cons fun c hc => (hkeys c hc).1
  have hsame : Note.ofConfig? (Action.leaf t (fields.update changes)).config =
      Note.ofConfig? (Action.leaf t fields).config := by
    rw [← hconfig, Note.ofConfig?, Fields.value_update fun c hc => (hkeys c hc).2, Note.ofConfig?]
  obtain ⟨shown, hshown, hn⟩ := bind_eq_ok.mp hn
  cases hn
  obtain ⟨shown', hshown'⟩ : ∃ shown', shownNote (Action.leaf t (fields.update changes)).config =
      .ok shown' := by
    rcases shownNote_eq_ok.mp hshown with ⟨hnone, -⟩ | ⟨note, hsome, -⟩
    · exact ⟨_, shownNote_eq_ok.mpr (Or.inl ⟨hsame.trans hnone, rfl⟩)⟩
    · exact ⟨_, shownNote_eq_ok.mpr (Or.inr ⟨note, hsame.trans hsome, rfl⟩)⟩
  refine ⟨_, bind_eq_ok.mpr ⟨shown', hshown', rfl⟩, fun position => ?_⟩
  rw [hconfig]
  exact Node.refresh_eq rfl rfl hsame hshown hshown'

end

end ScriptFlow
