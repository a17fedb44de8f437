import ScriptFlow.Script.Rebuild
import ScriptFlow.Proofs.Drawn
import ScriptFlow.Proofs.Reading

/-! What a drawn node saves. The configuration that is saved is the one that the node was drawn
with, and the action or the capability that is read back from it is the drawn one. -/

namespace ScriptFlow

namespace Fields

theorem get?_append (fs gs : Fields) (k : String) :
    get? (fs ++ gs) k = (get? fs k).or (get? gs k) :=
  List.lookup_append

theorem set_append {fs gs : Fields} {k : String} (h : fs.get? k = none) (v : Json) :
    set (fs ++ gs) k v = fs ++ set gs k v := by
  induction fs with
  | nil => rfl
  | cons f fs ih =>
    rw [get?_cons] at h
    split at h
    · cases h
    · next hne =>
      rw [List.cons_append, set, if_neg (Ne.symm hne), ih h]
      rfl

theorem get?_optionalField (key k : String) (v : Option Json) :
    get? (optionalField key v) k = if k = key then v else none := by
  cases v with
  | none => simp [optionalField, get?_nil]
  | some v => simp [optionalField, get?_cons, get?_nil]

theorem get?_eq_none {fs : Fields} {k : String} (h : ∀ f ∈ fs, f.1 ≠ k) : get? fs k = none := by
  induction fs with
  | nil => rfl
  | cons f fs ih =>
    rw [get?_cons, if_neg (h f List.mem_cons_self).symm]
    exact ih fun f hf => h f (List.mem_cons_of_mem _ hf)

theorem without_eq_self {fs : Fields} {keys : List String} (h : ∀ f ∈ fs, f.1 ∉ keys) :
    without fs keys = fs := by
  refine List.filter_eq_self.mpr ?_
  intro f hf
  simp [h f hf]

theorem without_cons {f : String × Json} {fs : Fields} {keys : List String} (h : f.1 ∈ keys) :
    without (f :: fs) keys = without fs keys := by
  simp [without, h]

theorem without_append (fs gs : Fields) (keys : List String) :
    without (fs ++ gs) keys = without fs keys ++ without gs keys :=
  List.filter_append fs gs

theorem without_optionalField {key : String} {keys : List String} (h : key ∈ keys)
    (v : Option Json) : without (optionalField key v) keys = [] := by
  cases v <;> simp [optionalField, without, h]

end Fields

namespace Action

/-- The fields of its own that an action writes besides its type and its bodies. -/
def headFields : Action → Fields
  | leaf .. => []
  | branch condition .. => optionalField "condition" condition
  | loop head .. => head.fields

/-- A configuration is the type, the head and the other fields, without the keys of bodies if the
action has bodies. -/
theorem config_eq (a : Action) :
    a.config = ("type", .str a.type) :: (a.headFields ++ a.others) ∨
      bodyKeys ⊆ a.ownKeys ++ a.strayKeys ∧
        a.config = ("type", .str a.type) :: (a.headFields ++ a.others.without bodyKeys) := by
  cases a with
  | leaf => exact Or.inl rfl
  | branch => exact Or.inr ⟨by simp [bodyKeys, ownKeys, strayKeys], rfl⟩
  | loop head => exact Or.inr ⟨by cases head <;> simp [bodyKeys, ownKeys, strayKeys], rfl⟩

theorem config_eq_cons (a : Action) : ∃ rest, a.config = ("type", .str a.type) :: rest := by
  rcases a.config_eq with h | ⟨-, h⟩
  · exact ⟨_, h⟩
  · exact ⟨_, h⟩

theorem get?_headFields_noteKey (a : Action) : a.headFields.get? noteKey = none := by
  cases a with
  | leaf => rfl
  | branch => simp [headFields, Fields.get?_optionalField, noteKey]
  | loop head =>
    cases head <;>
      simp [headFields, LoopHead.fields, Fields.get?_append, Fields.get?_optionalField, noteKey]

/-- The note in a configuration is that of the other fields. -/
theorem value_config_noteKey (a : Action) : a.config.value noteKey = a.others.value noteKey := by
  have htype : noteKey ≠ "type" := by decide
  have hbody : noteKey ∉ bodyKeys := by decide
  unfold Fields.value
  rcases a.config_eq with h | ⟨-, h⟩
  · rw [h, Fields.get?_cons, if_neg htype, Fields.get?_append, a.get?_headFields_noteKey,
      Option.none_or]
  · rw [h, Fields.get?_cons, if_neg htype, Fields.get?_append, a.get?_headFields_noteKey,
      Option.none_or, Fields.get?_without, if_neg hbody]

end Action

theorem Json.same_str (s : String) : (Json.str s).same (.str s) := by
  simp [same, sameScalar]

namespace Note

/-- What is read of a note that fits stands in it as it is. -/
theorem ofPayload?_of_fits {note : Fields}
    (hc : note.get? "content" = none ∨ ∃ s, note.get? "content" = some (.str s))
    (hd : note.get? "configHash" = none ∨ note.get? "configHash" = some .null ∨
      ∃ s, note.get? "configHash" = some (.str s)) :
    ofPayload? note = none ∨ ∃ n : Note, ofPayload? note = some (.accepted n) ∧
      note.value "content" = .str n.content ∧
        ∀ t, n.digest = some t → note.value "configHash" = .str t := by
  unfold ofPayload?
  rcases hc with hc | ⟨s, hc⟩
  · exact Or.inl (by simp [Fields.value, hc, Json.truthy])
  by_cases hs : s = ""
  · exact Or.inl (by simp [Fields.value, hc, Json.truthy, hs])
  refine Or.inr ?_
  have htruthy : (Json.str s).truthy = true := by simpa [Json.truthy] using hs
  simp only [Fields.value, hc, Option.getD_some, htruthy, if_true, Json.text]
  rcases hd with hd | hd | ⟨t, hd⟩
  · exact ⟨⟨s, none⟩, by simp [hd, readDigest, Checked.under, Checked.map], rfl, by simp⟩
  · exact ⟨⟨s, none⟩, by simp [hd, readDigest, Checked.under, Checked.map], rfl, by simp⟩
  · refine ⟨⟨s, some t⟩, ?_, rfl, by simp [hd]⟩
    simp [hd, readDigest, Read.text, Checked.under, Checked.map]

theorem content_shown (n : Note) (config : Fields) :
    Fields.value (n.shown config) "content" = .str n.content := by
  simp [shown, Note.payload, Fields.value, Fields.get?_cons]

theorem digest_shown (n : Note) (config : Fields) :
    Fields.value (n.shown config) "configHash" = (n.digest.map Json.str).getD .null := by
  simp [shown, Note.payload, Fields.value, Fields.get?_cons]

/-- Of a shown note its content and its digest are stored. -/
theorem storable?_shown {n : Note} {config payload : Fields}
    (h : storable? (.obj (n.shown config)) = some payload) : ∃ t, n.digest = some t ∧
      payload = [("content", .str n.content), ("configHash", .str t)] ∧
        n.content ≠ "" ∧ t ≠ "" := by
  have hother : Fields.value (n.shown config) "config_hash" = .null := by
    simp [shown, Note.payload, Fields.value, Fields.get?_cons, Fields.get?_nil]
  simp only [storable?, content_shown, digest_shown, hother] at h
  split at h
  · next ht =>
    cases hn : n.digest with
    | none => simp [hn, Json.orElse, Json.truthy] at ht
    | some t =>
      by_cases he : t = ""
      · simp [hn, he, Json.orElse, Json.truthy] at ht
      · rw [hn, Option.map_some, Option.getD_some] at h
        have hor : (Json.str t).orElse .null = .str t := by simp [Json.orElse, Json.truthy, he]
        rw [hor] at h
        have hc : n.content ≠ "" := by
          intro hc
          simp [hc, Json.truthy] at ht
        exact ⟨t, rfl, (Option.some.inj h).symm, hc, he⟩
  · cases h

end Note

/-- What is shown of a configuration is its note, if it has one. -/
theorem shownNote_eq_ok {config shown : Fields} : shownNote config = .ok shown ↔
    Note.ofConfig? config = none ∧ shown = [] ∨
      ∃ n, Note.ofConfig? config = some (.accepted n) ∧ shown = [("note", .obj (n.shown config))] := by
  unfold shownNote
  rcases Note.ofConfig? config with _ | ⟨n⟩ | issues
  · simp [eq_comm]
  · simp [Checked.orFault, Checked.toExcept, bind, Except.bind, eq_comm]
  · simp [Checked.orFault, Checked.toExcept, bind, Except.bind]

/-- The configuration that is saved of a node that is drawn with one: its note is written anew unless
it is held already. -/
def storedConfig (config : Fields) : Fields :=
  match shownNote config with
  | .ok shown =>
    match Note.storable? (shown.value "note") with
    | some payload =>
      if holdsNote config payload then config else config.set noteKey (.obj payload)
    | none => config
  | .error _ => config

/-- The note of a configuration can be shown, and what would be stored of it is held already. -/
def NoteHeld (config : Fields) : Prop := ∃ shown, shownNote config = .ok shown ∧
  ∀ payload, Note.storable? (shown.value "note") = some payload → holdsNote config payload

theorem NoteHeld.storedConfig_eq {config : Fields} (h : NoteHeld config) :
    storedConfig config = config := by
  obtain ⟨shown, hs, hheld⟩ := h
  simp only [storedConfig, hs]
  split
  · next payload hp => rw [if_pos (hheld payload hp)]
  · rfl

/-- What is shown of a note that fits is held already. -/
theorem noteHeld_of_fits {a : Action} (h : a.NoteFits) : NoteHeld a.config := by
  have hnone : ∀ payload, Note.storable? (Fields.value [] "note") ≠ some payload := by
    intro payload hp
    cases hp
  unfold NoteHeld shownNote Note.ofConfig?
  cases hv : a.config.value noteKey with
  | obj note =>
    obtain ⟨hc, hd⟩ := h note (a.value_config_noteKey ▸ hv)
    rcases Note.ofPayload?_of_fits hc hd with hn | ⟨n, hn, hcontent, hdigest⟩
    · exact ⟨[], by simp [Json.fields?, hn], fun payload hp => absurd hp (hnone payload)⟩
    · refine ⟨[("note", .obj (n.shown a.config))], ?_, ?_⟩
      · simp [Json.fields?, hn, Checked.orFault, Checked.toExcept, bind, Except.bind]
      · intro payload hp
        obtain ⟨t, ht, rfl, -⟩ := Note.storable?_shown hp
        simp only [holdsNote, hv, hcontent, hdigest t ht, Bool.and_eq_true]
        exact ⟨Json.same_str n.content, Json.same_str t⟩
  | _ => exact ⟨[], rfl, fun payload hp => absurd hp (hnone payload)⟩

namespace Action

/-- The fault of the note of an action: it has content, and a digest that is neither a text nor
null. -/
def noteFault? (a : Action) : Option Fault :=
  match a.others.value noteKey with
  | .obj note =>
    if (Fields.value note "content").truthy then
      match Fields.value note "configHash" with
      | .null | .str _ => none
      | v => some (.schema "NodeNote" [⟨[.key "config_hash"], .notText, v⟩])
    else none
  | _ => none

variable {a : Action}

theorem noteFault?_eq_none : a.noteFault? = none ↔ a.DigestFits := by
  unfold noteFault? DigestFits
  cases a.others.value noteKey with
  | obj note =>
    simp only [Json.obj.injEq, forall_eq']
    by_cases hc : (Fields.value note "content").truthy = true
    · cases Fields.value note "configHash" <;> simp [hc]
    · simp [hc]
  | _ => simp

/-- What is shown of an action, or the fault of its note. -/
theorem shownNote_config (a : Action) :
    ∃ shown, shownNote a.config = a.noteFault?.elim (.ok shown) .error := by
  unfold shownNote Note.ofConfig? noteFault?
  rw [value_config_noteKey]
  cases a.others.value noteKey with
  | obj note =>
    simp only [Json.fields?, Option.bind_some, Note.ofPayload?]
    by_cases hc : (Fields.value note "content").truthy = true
    · rw [if_pos hc, if_pos hc]
      cases Fields.value note "configHash" with
      | null => exact ⟨_, rfl⟩
      | str s => exact ⟨_, rfl⟩
      | _ => exact ⟨[], rfl⟩
    · rw [if_neg hc, if_neg hc]
      exact ⟨[], rfl⟩
  | _ => exact ⟨[], rfl⟩

/-- A note can be shown if its digest is a text or null. -/
theorem shownNote_of_digestFits (h : a.DigestFits) : ∃ shown, shownNote a.config = .ok shown := by
  obtain ⟨shown, hshown⟩ := a.shownNote_config
  rw [noteFault?_eq_none.mpr h] at hshown
  exact ⟨shown, hshown⟩

end Action

theorem get?_presentation (stem : String) (spot : Spot) (type : String) (config : Fields) :
    (spot.presentation stem type config).get? "note" = none := by
  simp only [Spot.presentation, Fields.get?_append, Fields.get?_optionalField]
  cases spot.inLoop <;> simp [Fields.get?_cons, Fields.get?_nil]

namespace Action

/-- What it takes for an action to be read back from its node. -/
structure Restored (a : Action) : Prop where
  keys : a.KeysApart
  stray : a.NoStray
  note : NoteHeld a.config

/-- What is asked of the parts of a script for an action to be read back from its node. -/
structure Kept (a : Action) : Prop where
  keys : a.KeysApart
  stray : a.NoStray
  note : a.NoteFits

theorem Kept.restored {a : Action} (h : a.Kept) : a.Restored :=
  ⟨h.keys, h.stray, noteHeld_of_fits h.note⟩

theorem KeysApart.get?_others {a : Action} (h : a.KeysApart) {key : String}
    (hk : key ∈ a.ownKeys) : a.others.get? key = none :=
  Fields.get?_eq_none fun f hf heq => h f hf (heq ▸ hk)

theorem type_mem_ownKeys (a : Action) : "type" ∈ a.ownKeys := by
  cases a with
  | leaf => simp [ownKeys]
  | branch => simp [ownKeys]
  | loop head => cases head <;> simp [ownKeys]

theorem headFields_without (a : Action) : a.headFields.without a.ownKeys = [] := by
  cases a with
  | leaf => rfl
  | branch condition => exact Fields.without_optionalField (by simp [ownKeys]) condition
  | loop head =>
    cases head with
    | forEach source itemAs =>
      rw [headFields, LoopHead.fields, Fields.without_append,
        Fields.without_optionalField (by simp [ownKeys]),
        Fields.without_optionalField (by simp [ownKeys])]
      rfl
    | whileLoop condition maxIterations =>
      rw [headFields, LoopHead.fields, Fields.without_append,
        Fields.without_optionalField (by simp [ownKeys]),
        Fields.without_optionalField (by simp [ownKeys])]
      rfl

/-- No key of a body is left out of the configuration, since the other fields have none. -/
theorem KeysApart.config_eq {a : Action} (h : a.KeysApart) (hs : a.NoStray) :
    a.config = ("type", .str a.type) :: (a.headFields ++ a.others) := by
  rcases a.config_eq with hc | ⟨hsub, hc⟩
  · exact hc
  · rw [hc, Fields.without_eq_self]
    intro f hf hk
    rcases List.mem_append.mp (hsub hk) with hown | hstray
    · exact h f hf hown
    · exact hs f hf hstray

/-- Without its own keys the configuration of an action is its other fields. -/
theorem KeysApart.config_without {a : Action} (h : a.KeysApart) (hs : a.NoStray) :
    a.config.without a.ownKeys = a.others := by
  rw [h.config_eq hs, Fields.without_cons a.type_mem_ownKeys, Fields.without_append,
    a.headFields_without, List.nil_append, Fields.without_eq_self h]

/-- An own key of an action is looked up in what it writes itself. -/
theorem KeysApart.get?_config {a : Action} (h : a.KeysApart) (hs : a.NoStray) {key : String}
    (hk : key ∈ a.ownKeys) (hne : key ≠ "type") :
    a.config.get? key = a.headFields.get? key := by
  rw [h.config_eq hs, Fields.get?_cons, if_neg hne, Fields.get?_append, h.get?_others hk,
    Option.or_none]

end Action

section

variable {stem : String} {k : Nat} {spot : Spot} {n : Node} {a : Action}

/-- An action whose note can be shown is drawn. -/
theorem exists_node_of_shown {shown : Fields} (hs : shownNote a.config = .ok shown) :
    ∃ n, (Item.action k a spot).node stem = .ok n :=
  ⟨_, by simp only [Item.node, hs, bind, Except.bind]; rfl⟩

/-- What is drawn of an action, its note apart. -/
theorem drawn_of_node (hn : (Item.action k a spot).node stem = .ok n) :
    n.id = nodeId stem k ∧ n.kind = a.kind ∧ n.actionType = a.type ∧ n.config = a.config := by
  obtain ⟨shown, -, hn⟩ := bind_eq_ok.mp hn
  cases hn
  exact ⟨rfl, rfl, rfl, rfl⟩

theorem savedConfig_eq_of_node (hn : (Item.action k a spot).node stem = .ok n) :
    n.savedConfig = storedConfig a.config := by
  obtain ⟨shown, hs, hn⟩ := bind_eq_ok.mp hn
  cases hn
  obtain ⟨rest, hconfig⟩ := a.config_eq_cons
  have hget : a.config.get? "type" = some (.str a.type) := by
    simp [hconfig, Fields.get?_cons]
  have htype : (if a.type = "" then (a.config.get? "type").getD (.str "") else .str a.type) =
      Json.str a.type := by
    rw [hget]
    split
    · rfl
    · rfl
  have hset : a.config.set "type" (.str a.type) = a.config := by
    simp [hconfig, Fields.set]
  have hnote : Fields.value (spot.presentation stem a.type a.config ++ shown) "note" =
      shown.value "note" := by
    simp [Fields.value, Fields.get?_append, get?_presentation]
  cases hstored : Note.storable? (shown.value "note") with
  | none => simp only [Node.savedConfig, storedConfig, htype, hset, hnote, hs, hstored]
  | some payload => simp only [Node.savedConfig, storedConfig, htype, hset, hnote, hs, hstored]

theorem savedConfig_of_node (hn : (Item.action k a spot).node stem = .ok n)
    (h : NoteHeld a.config) : n.savedConfig = a.config :=
  (savedConfig_eq_of_node hn).trans h.storedConfig_eq

theorem leaf_of_node {type : String} {fields : Fields}
    (hn : (Item.action k (.leaf type fields) spot).node stem = .ok n)
    (h : (Action.leaf type fields).Restored) : n.leaf = .ok (.leaf type fields) := by
  rw [Node.leaf, savedConfig_of_node hn h.note]
  exact congrArg (fun fs => Except.ok (Action.leaf type fs)) (h.keys.config_without h.stray)

theorem branch_of_node {condition : Option Json} {extra : Fields} {thenBody elseBody : List Action}
    (hn : (Item.action k (.branch condition extra thenBody elseBody) spot).node stem = .ok n)
    (h : (Action.branch condition extra thenBody elseBody).Restored) (ts es : List Action) :
    n.branch ts es = .branch condition extra ts es := by
  have hcondition : (Action.branch condition extra thenBody elseBody).config.get? "condition" =
      condition := by
    rw [h.keys.get?_config h.stray (by simp [Action.ownKeys]) (by decide), Action.headFields,
      Fields.get?_optionalField, if_pos rfl]
  rw [Node.branch, savedConfig_of_node hn h.note, hcondition]
  exact congrArg (fun fs => Action.branch condition fs ts es) (h.keys.config_without h.stray)

theorem loop_of_node {head : LoopHead} {extra : Fields} {body : List Action}
    (hn : (Item.action k (.loop head extra body) spot).node stem = .ok n)
    (h : (Action.loop head extra body).Restored) (bs : List Action) :
    n.loop bs = .loop head extra bs := by
  have htype : n.actionType = head.type := (drawn_of_node hn).2.2.1
  have hget : ∀ key ∈ (Action.loop head extra body).ownKeys, key ≠ "type" →
      (Action.loop head extra body).config.get? key = head.fields.get? key :=
    fun key hk hne => h.keys.get?_config h.stray hk hne
  have hothers := h.keys.config_without h.stray
  rw [Node.loop, savedConfig_of_node hn h.note, htype]
  cases head with
  | forEach source itemAs =>
    rw [Action.ownKeys, Action.others] at hothers
    rw [if_neg (by simp [LoopHead.type]), hget "source" (by simp [Action.ownKeys]) (by decide),
      hget "itemAs" (by simp [Action.ownKeys]) (by decide), hothers]
    simp [LoopHead.fields, Fields.get?_append, Fields.get?_optionalField]
  | whileLoop condition maxIterations =>
    rw [Action.ownKeys, Action.others] at hothers
    rw [if_pos (by simp [LoopHead.type]), hget "condition" (by simp [Action.ownKeys]) (by decide),
      hget "maxIterations" (by simp [Action.ownKeys]) (by decide), hothers]
    simp [LoopHead.fields, Fields.get?_append, Fields.get?_optionalField]

end

namespace Capability

variable {c : Capability}

theorem KeysApart.get?_extra (h : c.KeysApart) {key : String} (hk : key ∈ knownKeys) :
    c.extra.get? key = none :=
  Fields.get?_eq_none fun f hf heq => h f hf (heq ▸ hk)

theorem KeysApart.get?_metadata (h : c.KeysApart) :
    c.metadata.get? "name" = c.name.map .str ∧
      c.metadata.get? "description" = c.description.map .str ∧
      c.metadata.get? "parameters" = c.parameters.map .arr ∧
      c.metadata.get? "trigger" = c.trigger := by
  have hextra : ∀ key ∈ knownKeys, Fields.get? c.extra key = none := fun _ hk => h.get?_extra hk
  simp [metadata, Fields.get?_append, Fields.get?_optionalField, hextra "name" (by decide),
    hextra "description" (by decide), hextra "parameters" (by decide),
    hextra "trigger" (by decide)]

theorem KeysApart.metadata_without (h : c.KeysApart) :
    c.metadata.without knownKeys = c.extra := by
  simp only [metadata, Fields.without_append]
  rw [Fields.without_optionalField (by decide), Fields.without_optionalField (by decide),
    Fields.without_optionalField (by decide), Fields.without_optionalField (by decide),
    Fields.without_eq_self h]
  rfl

theorem readText_of_text? (t : Option String) {fs : Fields} {key : String}
    (h : fs.get? key = t.map .str) : Read.field fs key none readText = .accepted t := by
  refine Read.field_eq_accepted.mpr ?_
  cases t with
  | none => exact Or.inr ⟨h, rfl⟩
  | some s => exact Or.inl ⟨.str s, h, rfl⟩

theorem readParameters_of_list? (ps : Option (List Json)) {fs : Fields} {key : String}
    (h : fs.get? key = ps.map .arr) : Read.field fs key none readParameters = .accepted ps := by
  refine Read.field_eq_accepted.mpr ?_
  cases ps with
  | none => exact Or.inr ⟨h, rfl⟩
  | some vs =>
    refine Or.inl ⟨.arr vs, h, Checked.map_eq_accepted.mpr ⟨vs, ?_, rfl⟩⟩
    exact Checked.items_eq_accepted.mpr (List.forall₂_same.mpr fun _ _ => rfl)

/-- A capability is read back from its described part, around any actions. -/
theorem KeysApart.ofFieldsWith_metadata (h : c.KeysApart) (actions : List Action) :
    ofFieldsWith c.metadata actions = .accepted { c with actions } := by
  obtain ⟨hn, hd, hp, ht⟩ := h.get?_metadata
  refine ofFieldsWith_eq_accepted.mpr ⟨⟨?_, ?_, ?_⟩, ht.symm, h.metadata_without.symm, rfl⟩
  · exact readText_of_text? c.name hn
  · exact readText_of_text? c.description hd
  · exact readParameters_of_list? c.parameters hp

/-- The name of a drawn capability stays, since its label is that name. -/
theorem KeysApart.capabilityFields {stem : String} {k : Nat} {n : Node} (h : c.KeysApart)
    (hn : (Item.capability k c).node stem = .ok n) : Graph.capabilityFields n = c.metadata := by
  cases hn
  obtain ⟨hname, -⟩ := h.get?_metadata
  have hlabel : Fields.value (entryPresentation (.str c.title)) "label" = .str c.title := rfl
  have hvalue : Fields.value c.metadata "name" = (c.name.map Json.str).getD .null :=
    congrArg (fun v => v.getD .null) hname
  simp only [Graph.capabilityFields, hlabel, hvalue]
  cases hc : c.name with
  | none => simp [title, hc, Json.truthy]
  | some s => by_cases hs : s = "" <;> simp [title, hc, Json.truthy, hs]

end Capability

end ScriptFlow
