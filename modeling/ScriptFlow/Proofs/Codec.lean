import ScriptFlow.Proofs.RoundTrip

/-! Reading back what is written of a script. The written form of a document is read as that
document, unless a leaf has the type of an action that holds others: such a leaf is read as that
other action. -/

namespace ScriptFlow

namespace Action

/-- The types of the actions that hold others. -/
def controlTypes : List String := ["if", "forEach", "while"]

/-- A leaf has none of the types of the actions that hold others. -/
def TagFits : Action → Prop
  | leaf type _ => type ∉ controlTypes
  | _ => True

/-- The fields that hold the nested actions of an action. -/
def bodyFields : Action → Fields
  | leaf .. => []
  | branch _ _ thenBody elseBody =>
    [("then", .arr (listToJson thenBody)), ("else", .arr (listToJson elseBody))]
  | loop _ _ body => [("do", .arr (listToJson body))]

/-- What is written of an action after its type. -/
def rest (a : Action) : Fields := a.headFields ++ a.others ++ a.bodyFields

theorem toJson_eq (a : Action) : a.toJson = .obj (("type", .str a.type) :: a.rest) := by
  cases a with
  | leaf => simp [toJson, type, rest, headFields, others, bodyFields]
  | branch => rfl
  | loop => rfl

theorem bodyUnder_eq (fs : Fields) (key : String) :
    bodyUnder fs key = ((fs.get? key).map bodyOfJson).getD [] := by
  induction fs with
  | nil => rfl
  | cons f fs ih =>
    rw [bodyUnder, Fields.get?_cons]
    split
    · rfl
    · exact ih

theorem ofFields_type {t : String} {rest : Fields} {bodyOf : String → List Action}
    (h : ∀ f ∈ rest, f.1 ≠ "type") :
    ofFields (("type", .str t) :: rest) bodyOf = ofTag t rest bodyOf := by
  have hrest : Fields.without (("type", .str t) :: rest) ["type"] = rest := by
    rw [Fields.without_cons (by simp), Fields.without_eq_self (by simpa using h)]
  simp only [ofFields, Fields.value, Fields.get?_cons, if_true, Option.getD_some, hrest]

theorem ofTag_eq_leaf_iff {t : String} {fields : Fields} {bodyOf : String → List Action} :
    ofTag t fields bodyOf = leaf t fields ↔ t ∉ controlTypes := by
  unfold ofTag
  simp only [controlTypes, List.mem_cons, List.not_mem_nil, or_false, not_or]
  split
  · simp [*]
  split
  · simp [*]
  split
  · simp [*]
  · simp [*]

theorem ne_type_of_mem_headFields {a : Action} {f : String × Json} (hf : f ∈ a.headFields) :
    f.1 ≠ "type" := by
  have hoption : ∀ {key : String} {v : Option Json}, key ≠ "type" → f ∈ optionalField key v →
      f.1 ≠ "type" := by
    intro key v hne hm
    cases v with
    | none => exact absurd hm List.not_mem_nil
    | some v => exact List.mem_singleton.mp hm ▸ hne
  cases a with
  | leaf => exact absurd hf List.not_mem_nil
  | branch => exact hoption (by decide) hf
  | loop head =>
    cases head <;>
      exact (List.mem_append.mp hf).elim (hoption (by decide)) (hoption (by decide))

theorem bodyFields_without (a : Action) : a.bodyFields.without a.ownKeys = [] := by
  cases a with
  | leaf => rfl
  | branch => simp [bodyFields, Fields.without, ownKeys]
  | loop head => cases head <;> simp [bodyFields, Fields.without, ownKeys]

theorem ne_type_of_mem_bodyFields {a : Action} {f : String × Json} (hf : f ∈ a.bodyFields) :
    f.1 ≠ "type" := by
  cases a with
  | leaf => exact absurd hf List.not_mem_nil
  | branch =>
    simp only [bodyFields, List.mem_cons, List.not_mem_nil, or_false] at hf
    rcases hf with rfl | rfl <;> simp
  | loop =>
    simp only [bodyFields, List.mem_singleton] at hf
    simp [hf]

namespace KeysApart

variable {a : Action}

/-- The type of an action is written once. -/
theorem ne_type_of_mem_rest (h : a.KeysApart) {f : String × Json} (hf : f ∈ a.rest) :
    f.1 ≠ "type" := by
  simp only [rest, List.mem_append] at hf
  rcases hf with (hf | hf) | hf
  · exact ne_type_of_mem_headFields hf
  · exact fun he => h f hf (he ▸ a.type_mem_ownKeys)
  · exact ne_type_of_mem_bodyFields hf

theorem ofJson_toJson (h : a.KeysApart) :
    ofJson a.toJson = ofTag a.type a.rest (bodyUnder (("type", .str a.type) :: a.rest)) := by
  rw [toJson_eq, ofJson, ofFields_type fun f hf => h.ne_type_of_mem_rest hf]

theorem get?_rest (h : a.KeysApart) (key : String) (hk : key ∈ a.ownKeys) :
    a.rest.get? key = (a.headFields.get? key).or (a.bodyFields.get? key) := by
  rw [rest, Fields.get?_append, Fields.get?_append, h.get?_others hk, Option.or_none]

theorem rest_without (h : a.KeysApart) {keys : List String} (hkeys : a.ownKeys = "type" :: keys) :
    a.rest.without keys = a.others := by
  have htype : a.rest.without keys = a.rest.without a.ownKeys := by
    rw [hkeys]
    refine List.filter_congr ?_
    intro f hf
    simp [h.ne_type_of_mem_rest hf]
  rw [htype, rest, Fields.without_append, Fields.without_append, a.headFields_without,
    a.bodyFields_without, Fields.without_eq_self h, List.nil_append, List.append_nil]

/-- The actions under a key of bodies are read from what is written there. -/
theorem bodyUnder_rest (h : a.KeysApart) (key : String) (hk : key ∈ a.ownKeys)
    (hne : key ≠ "type") (hhead : a.headFields.get? key = none) :
    bodyUnder (("type", .str a.type) :: a.rest) key =
      ((a.bodyFields.get? key).map bodyOfJson).getD [] := by
  rw [bodyUnder_eq, Fields.get?_cons, if_neg hne, h.get?_rest key hk, hhead, Option.none_or]

end KeysApart

theorem ofJson_leaf {t : String} {fields : Fields} (h : (leaf t fields).KeysApart) :
    ofJson (leaf t fields).toJson = leaf t fields ↔ t ∉ controlTypes := by
  have hrest : rest (leaf t fields) = fields := List.append_nil _
  rw [h.ofJson_toJson, hrest]
  exact ofTag_eq_leaf_iff

theorem ofJson_branch {condition : Option Json} {extra : Fields} {thenBody elseBody : List Action}
    (h : (branch condition extra thenBody elseBody).KeysApart) :
    ofJson (branch condition extra thenBody elseBody).toJson =
      branch condition extra (ofItems (listToJson thenBody)) (ofItems (listToJson elseBody)) := by
  have hcondition := h.get?_rest "condition" (by simp [ownKeys])
  have hthen := h.bodyUnder_rest "then" (by simp [ownKeys]) (by decide)
    (by simp [headFields, Fields.get?_optionalField])
  have helse := h.bodyUnder_rest "else" (by simp [ownKeys]) (by decide)
    (by simp [headFields, Fields.get?_optionalField])
  rw [h.ofJson_toJson, ofTag, if_pos (by rfl), h.rest_without rfl, hcondition, hthen, helse]
  simp [headFields, bodyFields, Fields.get?_optionalField, Fields.get?_cons, Fields.get?_nil,
    bodyOfJson, others]

theorem ofJson_loop {head : LoopHead} {extra : Fields} {body : List Action}
    (h : (loop head extra body).KeysApart) :
    ofJson (loop head extra body).toJson = loop head extra (ofItems (listToJson body)) := by
  cases head with
  | forEach source itemAs =>
    have hsource := h.get?_rest "source" (by simp [ownKeys])
    have hitemAs := h.get?_rest "itemAs" (by simp [ownKeys])
    have hdo := h.bodyUnder_rest "do" (by simp [ownKeys]) (by decide)
      (by simp [headFields, LoopHead.fields, Fields.get?_append, Fields.get?_optionalField])
    rw [h.ofJson_toJson, ofTag, if_neg (by simp [type, LoopHead.type]), if_pos (by rfl),
      h.rest_without rfl, hsource, hitemAs, hdo]
    simp [headFields, LoopHead.fields, bodyFields, Fields.get?_append, Fields.get?_optionalField,
      Fields.get?_cons, Fields.get?_nil, bodyOfJson, others]
  | whileLoop condition maxIterations =>
    have hcondition := h.get?_rest "condition" (by simp [ownKeys])
    have hmax := h.get?_rest "maxIterations" (by simp [ownKeys])
    have hdo := h.bodyUnder_rest "do" (by simp [ownKeys]) (by decide)
      (by simp [headFields, LoopHead.fields, Fields.get?_append, Fields.get?_optionalField])
    rw [h.ofJson_toJson, ofTag, if_neg (by simp [type, LoopHead.type]),
      if_neg (by simp [type, LoopHead.type]), if_pos (by rfl), h.rest_without rfl, hcondition, hmax,
      hdo]
    simp [headFields, LoopHead.fields, bodyFields, Fields.get?_append, Fields.get?_optionalField,
      Fields.get?_cons, Fields.get?_nil, bodyOfJson, others]

mutual
/-- An action is read back from what is written of it unless a leaf in it has the type of another
action. -/
theorem ofJson_toJson_iff : (a : Action) → a.Every KeysApart →
    (ofJson a.toJson = a ↔ a.Every TagFits)
  | leaf _ _, h => ofJson_leaf h
  | branch condition extra thenBody elseBody, h => by
    rw [ofJson_branch h.1, branch.injEq, ofItems_listToJson_iff thenBody h.2.1,
      ofItems_listToJson_iff elseBody h.2.2]
    simp [Every, TagFits]
  | loop head extra body, h => by
    rw [ofJson_loop h.1, loop.injEq, ofItems_listToJson_iff body h.2]
    simp [Every, TagFits]

theorem ofItems_listToJson_iff : (as : List Action) → ListEvery KeysApart as →
    (ofItems (listToJson as) = as ↔ ListEvery TagFits as)
  | [], _ => iff_of_true rfl trivial
  | a :: as, h => by
    rw [listToJson, ofItems, List.cons.injEq, ofJson_toJson_iff a h.1,
      ofItems_listToJson_iff as h.2]
    rfl
end

end Action

namespace Capability

theorem ofFieldsWith_congr {fs gs : Fields} (actions : List Action)
    (h : ∀ key ∈ ["name", "description", "parameters", "trigger"], fs.get? key = gs.get? key)
    (hw : fs.without knownKeys = gs.without knownKeys) :
    ofFieldsWith fs actions = ofFieldsWith gs actions := by
  simp only [ofFieldsWith, Read.field, h "name" (by simp), h "description" (by simp),
    h "parameters" (by simp), h "trigger" (by simp), hw]

theorem KeysApart.get?_metadata_actions {c : Capability} (h : c.KeysApart) :
    c.metadata.get? "actions" = none := by
  have hextra : Fields.get? c.extra "actions" = none := h.get?_extra (by decide)
  simp [metadata, Fields.get?_append, Fields.get?_optionalField, hextra]

/-- The capability with its actions written and read back. -/
def reread (c : Capability) : Capability :=
  { c with actions := Action.ofItems (Action.listToJson c.actions) }

theorem reread_eq_iff {c : Capability} (h : Action.ListEvery Action.KeysApart c.actions) :
    c.reread = c ↔ Action.ListEvery Action.TagFits c.actions := by
  rw [← Action.ofItems_listToJson_iff c.actions h]
  obtain ⟨name, description, parameters, trigger, extra, actions⟩ := c
  simp [reread]

theorem KeysApart.ofJson_toJson {c : Capability} (h : c.KeysApart) :
    ofJson c.toJson = .accepted c.reread := by
  have hactions : Fields.value
      (c.metadata ++ [("actions", .arr (Action.listToJson c.actions))]) "actions" =
        .arr (Action.listToJson c.actions) := by
    simp [Fields.value, Fields.get?_append, h.get?_metadata_actions, Fields.get?_cons]
  have hw : Fields.without (c.metadata ++ [("actions", .arr (Action.listToJson c.actions))])
      knownKeys = c.metadata.without knownKeys := by
    rw [Fields.without_append, Fields.without_cons (by simp [knownKeys])]
    exact List.append_nil _
  rw [toJson, ofJson, Read.record, ofFields, hactions, Action.listOfJson,
    ofFieldsWith_congr _ ?_ hw, h.ofFieldsWith_metadata, reread]
  intro key hk
  have hne : key ≠ "actions" := by
    rintro rfl
    simp at hk
  simp [Fields.get?_append, Fields.get?_cons, Fields.get?_nil, hne]

end Capability

namespace Document

/-- The other fields of a document, of its capabilities and of its actions have keys of their
own. -/
structure KeysApart (d : Document) : Prop where
  extra : ∀ f ∈ d.extra, f.1 ≠ "capabilities"
  capabilities : ∀ c ∈ d.capabilities, c.KeysApart
  actions : d.Every Action.KeysApart

theorem keysApart_of_ofJson {v : Json} {d : Document} (h : ofJson v = .accepted d) :
    d.KeysApart := by
  obtain ⟨⟨fs, -, hextra⟩, hparts⟩ := of_ofJson h
  refine ⟨?_, fun c hc => (hparts c hc).1, fun c hc => (hparts c hc).2⟩
  intro f hf
  rw [hextra] at hf
  simpa using Fields.not_mem_of_mem_without hf

/-- A document is read back from what is written of it unless a leaf in it has the type of another
action. -/
theorem KeysApart.ofJson_toJson_iff {d : Document} (h : d.KeysApart) :
    ofJson d.toJson = .accepted d ↔ d.Every Action.TagFits := by
  have hextra : Fields.without d.extra ["capabilities"] = d.extra :=
    Fields.without_eq_self (by simpa using h.extra)
  have hget : Fields.get? d.extra "capabilities" = none := Fields.get?_eq_none h.extra
  have hcapabilities : Read.list Capability.ofJson (.arr (d.capabilities.map Capability.toJson)) =
      .accepted (d.capabilities.map Capability.reread) := by
    refine Checked.items_eq_accepted.mpr ?_
    rw [List.forall₂_map_left_iff, List.forall₂_map_right_iff, List.forall₂_same]
    exact fun c hc => (h.capabilities c hc).ofJson_toJson
  have hread : ofJson d.toJson = .accepted ⟨d.capabilities.map Capability.reread, d.extra⟩ := by
    have hlast : Fields.without [("capabilities", Json.arr (d.capabilities.map Capability.toJson))]
        ["capabilities"] = [] := by
      simp [Fields.without]
    simp [toJson, ofJson, Read.record, Read.field, Fields.get?_append, hget, Fields.get?_cons,
      readCapabilities, hcapabilities, Checked.under, Checked.map, Fields.without_append, hextra,
      hlast]
  have hsame : ∀ c ∈ d.capabilities, c.reread = id c ↔ Action.ListEvery Action.TagFits c.actions :=
    fun c hc => Capability.reread_eq_iff (h.actions c hc)
  calc ofJson d.toJson = .accepted d
      ↔ d.capabilities.map Capability.reread = d.capabilities.map id := by
        rw [hread, List.map_id]
        exact ⟨fun he => congrArg Document.capabilities (Checked.accepted.inj he),
          fun he => by rw [he]⟩
    _ ↔ ∀ c ∈ d.capabilities, c.reread = id c := List.map_inj_left
    _ ↔ d.Every Action.TagFits := forall₂_congr hsame

end Document

end ScriptFlow
