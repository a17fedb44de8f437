import ScriptFlow.Proofs.Contribution
import ScriptFlow.Proofs.Sieve
import ScriptFlow.Service

/-! What is let through of a script and of its flow. Drawing a script and reading a flow back write
no other keys than those they are given and a few of their own, and no other numbers than those they
are given and the places of nodes. -/

namespace ScriptFlow

variable {σ : Json.Sieve}

/-! Actions. -/

namespace Action

/-- The fields of an action, its bodies apart, are let through. -/
def Passes (σ : Json.Sieve) (a : Action) : Prop := Fields.Passes σ (a.headFields ++ a.others)

variable {fs : Fields}

theorem passes_leaf (h : fs.Passes σ) (type : String) : (leaf type fs).Passes σ := h

theorem passes_branch (h : fs.Passes σ) (keys : List String) (ts es : List Action) :
    (branch (fs.get? "condition") (fs.without keys) ts es).Passes σ :=
  Fields.passes_append.mpr ⟨h.taken rfl, h.without keys⟩

theorem passes_forEach (h : fs.Passes σ) (keys : List String) (bs : List Action) :
    (loop (.forEach (fs.get? "source") (fs.get? "itemAs")) (fs.without keys) bs).Passes σ :=
  Fields.passes_append.mpr ⟨Fields.passes_append.mpr ⟨h.taken rfl, h.taken rfl⟩, h.without keys⟩

theorem passes_while (h : fs.Passes σ) (keys : List String) (bs : List Action) :
    (loop (.whileLoop (fs.get? "condition") (fs.get? "maxIterations")) (fs.without keys)
      bs).Passes σ :=
  Fields.passes_append.mpr ⟨Fields.passes_append.mpr ⟨h.taken rfl, h.taken rfl⟩, h.without keys⟩

theorem Passes.config {a : Action} (h : a.Passes σ) : a.config.Passes σ := by
  obtain ⟨hhead, hothers⟩ := Fields.passes_append.mp h
  rcases a.config_eq with hc | ⟨-, hc⟩
  · rw [hc]
    exact .cons rfl (Json.passes_str _) h
  · rw [hc]
    exact .cons rfl (Json.passes_str _) (Fields.passes_append.mpr ⟨hhead, hothers.without _⟩)

theorem every_passes_ofTag {tag : String} {bodyOf : String → List Action} (h : fs.Passes σ)
    (hbody : ∀ key, ListEvery (Passes σ) (bodyOf key)) :
    (ofTag tag fs bodyOf).Every (Passes σ) := by
  unfold ofTag
  split
  · exact ⟨passes_branch h _ _ _, hbody "then", hbody "else"⟩
  split
  · exact ⟨passes_forEach h _ _, hbody "do"⟩
  split
  · exact ⟨passes_while h _ _, hbody "do"⟩
  · exact passes_leaf h tag

theorem every_passes_ofFields {bodyOf : String → List Action} (h : fs.Passes σ)
    (hbody : ∀ key, ListEvery (Passes σ) (bodyOf key)) :
    (ofFields fs bodyOf).Every (Passes σ) := by
  unfold ofFields
  dsimp only
  split
  · exact every_passes_ofTag (h.without _) hbody
  · exact passes_leaf (h.without _) ""
  · exact passes_leaf (h.without _) _

/-- The actions that are read of a value have its keys and its numbers. -/
theorem inherited_passes : Inherited (Json.Passes σ) (Passes σ) where
  items h := Json.passes_arr.mp h
  fields h f hf := (Json.passes_obj.mp h f hf).2
  scalar h := passes_leaf (.cons rfl h .nil) ""
  object h hbody := every_passes_ofFields (Json.passes_obj.mp h) hbody

mutual
theorem passes_toJson : (a : Action) → a.Every (Passes σ) → a.toJson.Passes σ
  | leaf t fields, h => Json.passes_obj.mpr (.cons rfl (Json.passes_str t) h)
  | branch condition extra thenBody elseBody, h => by
    have hbodies : Fields.Passes σ [("then", .arr (listToJson thenBody)),
        ("else", .arr (listToJson elseBody))] :=
      .cons rfl (Json.passes_arr.mpr (passes_listToJson thenBody h.2.1))
        (.cons rfl (Json.passes_arr.mpr (passes_listToJson elseBody h.2.2)) .nil)
    exact Json.passes_obj.mpr (.cons rfl (Json.passes_str "if")
      (Fields.passes_append.mpr ⟨h.1, hbodies⟩))
  | loop head extra body, h => by
    have hbodies : Fields.Passes σ [("do", .arr (listToJson body))] :=
      .cons rfl (Json.passes_arr.mpr (passes_listToJson body h.2)) .nil
    exact Json.passes_obj.mpr (.cons rfl (Json.passes_str head.type)
      (Fields.passes_append.mpr ⟨h.1, hbodies⟩))

theorem passes_listToJson : (as : List Action) → ListEvery (Passes σ) as →
    ∀ v ∈ listToJson as, v.Passes σ
  | [], _ => fun _ h => absurd h List.not_mem_nil
  | a :: as, h => List.forall_mem_cons.mpr ⟨passes_toJson a h.1, passes_listToJson as h.2⟩
end

end Action

/-! Capabilities and documents. -/

namespace Capability

variable {fs : Fields} {c : Capability}

/-- What is written of a capability is let through. -/
structure Passes (σ : Json.Sieve) (c : Capability) : Prop where
  metadata : c.metadata.Passes σ
  actions : Action.ListEvery (Action.Passes σ) c.actions

theorem passes_parameters {ps : Option (List Json)} (h : fs.Passes σ)
    (hp : Read.field fs "parameters" none readParameters = .accepted ps) :
    ∀ v, ps.map Json.arr = some v → v.Passes σ := by
  intro v hv
  obtain ⟨vs, rfl, rfl⟩ := Option.map_eq_some_iff.mp hv
  rcases Read.field_eq_accepted.mp hp with ⟨w, hw, hread⟩ | ⟨-, hnone⟩
  · unfold readParameters at hread
    split at hread
    · cases hread
      exact Json.passes_arr.mpr fun _ hv => absurd hv List.not_mem_nil
    · obtain ⟨ws, hws, heq⟩ := Checked.map_eq_accepted.mp hread
      cases heq
      unfold Read.list at hws
      split at hws
      · next us _ =>
        have hsame : us = vs := List.forall₂_eq_eq_eq ▸
          (Checked.items_eq_accepted.mp hws).imp fun _ _ he => Checked.accepted.inj he
        exact hsame ▸ h.of_get? hw
      · cases hws
  · cases hnone

theorem passes_metadata {actions : List Action} (h : fs.Passes σ)
    (hc : ofFieldsWith fs actions = .accepted c) : c.metadata.Passes σ := by
  obtain ⟨⟨-, -, hparameters⟩, htrigger, hextra, -⟩ := ofFieldsWith_eq_accepted.mp hc
  have htext : ∀ (t : Option String) (v : Json), t.map Json.str = some v → v.Passes σ := by
    intro t v hv
    obtain ⟨s, -, rfl⟩ := Option.map_eq_some_iff.mp hv
    exact Json.passes_str s
  simp only [metadata, Fields.passes_append]
  refine ⟨⟨⟨⟨?_, ?_⟩, ?_⟩, ?_⟩, ?_⟩
  · exact .optionalField rfl (htext c.name)
  · exact .optionalField rfl (htext c.description)
  · exact .optionalField rfl (passes_parameters h hparameters)
  · exact .optionalField rfl fun v hv => h.of_get? (htrigger ▸ hv)
  · exact hextra ▸ h.without _

theorem passes_of_ofJson {v : Json} (h : v.Passes σ) (hc : ofJson v = .accepted c) :
    c.Passes σ := by
  obtain ⟨fs, rfl, hc⟩ := ofJson_eq_accepted.mp hc
  have hfs := Json.passes_obj.mp h
  obtain ⟨-, -, -, hactions⟩ := ofFieldsWith_eq_accepted.mp hc
  refine ⟨passes_metadata hfs hc, ?_⟩
  rw [hactions]
  exact Action.inherited_passes.every_listOfJson (hfs.value _)

theorem Passes.toJson (h : c.Passes σ) : c.toJson.Passes σ := by
  have hactions := Json.passes_arr.mpr (Action.passes_listToJson c.actions h.actions)
  exact Json.passes_obj.mpr (Fields.passes_append.mpr ⟨h.metadata, .cons rfl hactions .nil⟩)

end Capability

namespace Document

/-- The capabilities of a document have the keys and the numbers that are written of them. -/
theorem passes_of_ofJson {fs : Fields} {d : Document} (h : (fs.value "capabilities").Passes σ)
    (hd : Document.ofJson (.obj fs) = .accepted d) :
    ∀ c ∈ d.capabilities, c.Passes σ := by
  obtain ⟨gs, vs, hgs, -, hcapabilities, hvs⟩ := exists_of_ofJson hd
  obtain rfl := Json.obj.inj hgs
  intro c hc
  obtain ⟨w, hw, hcw⟩ := exists_of_forall₂_right hcapabilities c hc
  rcases hvs with hvs | ⟨rfl, -⟩
  · rw [Fields.value, hvs] at h
    exact Capability.passes_of_ofJson (Json.passes_arr.mp h w hw) hcw
  · exact absurd hw List.not_mem_nil

theorem passes_toJson {d : Document} (hextra : d.extra.Passes σ)
    (h : ∀ c ∈ d.capabilities, c.Passes σ) : d.toJson.Passes σ := by
  refine Json.passes_obj.mpr (Fields.passes_append.mpr ⟨hextra, .cons rfl ?_ .nil⟩)
  refine Json.passes_arr.mpr fun v hv => ?_
  obtain ⟨c, hc, rfl⟩ := List.mem_map.mp hv
  exact (h c hc).toJson

end Document

/-! Refusals. -/

theorem Capability.passes_readText : Read.Passes σ readText := by
  intro v hv
  unfold readText
  split
  · exact .accepted _
  · exact (Read.passes_text v hv).map _

theorem Capability.passes_readParameters : Read.Passes σ readParameters := by
  intro v hv
  unfold readParameters
  split
  · exact .accepted _
  · exact (Read.Passes.list (fun w _ => .accepted w) v hv).map _

theorem Capability.passes_ofJson : Read.Passes σ Capability.ofJson :=
  Read.passes_record fun _ hfs =>
    (((passes_readText.field hfs _ _).map _).apply (passes_readText.field hfs _ _)).apply
      (passes_readParameters.field hfs _ _)

/-- A script that cannot be read is refused for parts of it. -/
theorem Document.passes_ofJson : Read.Passes σ Document.ofJson := by
  have hcapabilities : Read.Passes σ readCapabilities := by
    intro v hv
    unfold readCapabilities
    split
    · exact .accepted _
    · exact Capability.passes_ofJson.list v hv
  exact Read.passes_record fun _ hfs => (hcapabilities.field hfs _ _).map _

theorem Service.passes_issueList {issues : List Issue} (h : ∀ i ∈ issues, i.input.Passes σ) :
    (issueList issues).Passes σ := by
  refine Json.passes_arr.mpr fun v hv => ?_
  obtain ⟨i, hi, rfl⟩ := List.mem_map.mp hv
  exact Issue.passes_report (h i hi)

/-- The digest that is complained of stands in the note. -/
theorem Action.exists_of_noteFault? {a : Action} {f : Fault} (h : a.noteFault? = some f) :
    ∃ record issues, f = .schema record issues ∧
      ∀ σ, a.Passes σ → ∀ i ∈ issues, i.input.Passes σ := by
  unfold noteFault? at h
  split at h
  · next note hnote =>
    split at h
    · split at h
      · cases h
      · cases h
      · cases h
        refine ⟨_, _, rfl, fun σ ha => List.forall_mem_singleton.mpr ?_⟩
        have hfields := (Fields.passes_append.mp ha).2.value noteKey
        exact (Json.passes_obj.mp (hnote ▸ hfields)).value "configHash"
    · cases h
  · cases h

/-! Nodes. -/

/-- Both coordinates are let through. -/
def Point.Passes (σ : Json.Sieve) (p : Point) : Prop :=
  σ.number p.x = true ∧ σ.number p.y = true

namespace Note

theorem passes_shown (n : Note) (config : Fields) : (n.shown config).Passes σ := by
  have hdigest : ((n.digest.map Json.str).getD .null).Passes σ := by
    cases n.digest with
    | none => rfl
    | some t => exact Json.passes_str t
  exact .cons rfl (Json.passes_str _) (.cons rfl hdigest (.cons rfl rfl .nil))

/-- What is stored of a note are its values. -/
theorem passes_of_storable? {v : Json} {payload : Fields} (h : v.Passes σ)
    (hp : storable? v = some payload) : payload.Passes σ := by
  unfold storable? at hp
  split at hp
  · next fs =>
    have hfs := Json.passes_obj.mp h
    dsimp only at hp
    split at hp
    · cases hp
      refine .cons rfl (hfs.value _) (.cons rfl ?_ .nil)
      unfold Json.orElse
      split
      · exact hfs.value _
      · exact hfs.value _
    · cases hp
  · cases hp

end Note

namespace Node

/-- The open fields of a node are let through. -/
structure Passes (σ : Json.Sieve) (n : Node) : Prop where
  config : n.config.Passes σ
  presentation : n.presentation.Passes σ

/-- A node as it is read back from what it is written as. -/
def dumped (n : Node) : Node :=
  { n with config := n.config.dumped, presentation := n.presentation.dumped }

variable {n : Node}

theorem dumped_of_passes (h : n.Passes .finite) : n.dumped = n := by
  rw [dumped, Fields.dumped_of_passes h.config, Fields.dumped_of_passes h.presentation]

theorem passes_dumped (n : Node) : n.dumped.Passes .finite :=
  ⟨n.config.passes_dumped, n.presentation.passes_dumped⟩

theorem Passes.dumped (h : n.Passes σ) : n.dumped.Passes σ :=
  ⟨h.config.dumped, h.presentation.dumped⟩

theorem Passes.savedConfig (h : n.Passes σ) : n.savedConfig.Passes σ := by
  have htype : (if n.actionType = "" then (n.config.get? "type").getD (.str "")
      else .str n.actionType).Passes σ := by
    split
    · cases hv : n.config.get? "type" with
      | none => exact Json.passes_str ""
      | some v => exact h.config.of_get? hv
    · exact Json.passes_str _
  unfold Node.savedConfig
  dsimp only
  generalize (if n.actionType = "" then (n.config.get? "type").getD (.str "")
    else .str n.actionType) = type at htype ⊢
  have hconfig : (n.config.set "type" type).Passes σ := h.config.set rfl htype
  split
  · next payload hp =>
    split
    · exact hconfig
    · exact hconfig.set rfl
        (Json.passes_obj.mpr (Note.passes_of_storable? (h.presentation.value "note") hp))
  · exact hconfig

theorem Passes.reads (h : n.Passes σ) {a : Action} (ha : n.Reads a) : a.Passes σ := by
  have hsaved := h.savedConfig
  cases ha with
  | leaf _ ha =>
    unfold Node.leaf at ha
    split at ha
    · cases ha
      exact Action.passes_leaf (hsaved.without _) _
    · cases ha
  | branch => exact Action.passes_branch hsaved _ _ _
  | loop =>
    unfold Node.loop
    dsimp only
    split
    · exact Action.passes_while hsaved _ _
    · exact Action.passes_forEach hsaved _ _

theorem Passes.capabilityFields (h : n.Passes σ) : (Graph.capabilityFields n).Passes σ := by
  unfold Graph.capabilityFields
  dsimp only
  split
  · exact h.config.set rfl (h.presentation.value _)
  · exact h.config

theorem passes_toJson (h : n.dumped.Passes σ) (hplace : n.position.Passes σ) :
    n.toJson.Passes σ := by
  have hpoint : n.position.toJson.Passes σ :=
    Json.passes_obj.mpr (.cons rfl hplace.1 (.cons rfl hplace.2 .nil))
  have htexts : ∀ ts : List String, (Json.arr (ts.map .str)).Passes σ := by
    intro ts
    refine Json.passes_arr.mpr fun v hv => ?_
    obtain ⟨t, -, rfl⟩ := List.mem_map.mp hv
    exact Json.passes_str t
  exact Json.passes_obj.mpr (.cons rfl (Json.passes_str _) (.cons rfl (Json.passes_str _)
    (.cons rfl (Json.passes_str _) (.cons rfl (Json.passes_obj.mpr h.config)
      (.cons rfl hpoint (.cons rfl (Json.passes_obj.mpr h.presentation)
        (.cons rfl (htexts _) (.cons rfl (htexts _) .nil))))))))

theorem Passes.move (h : n.Passes σ) (position : Point) : ({ n with position } : Node).Passes σ :=
  ⟨h.config, h.presentation⟩

end Node

theorem Edge.passes_toJson (e : Edge) : e.toJson.Passes σ :=
  Json.passes_obj.mpr (.cons rfl (Json.passes_str _) (.cons rfl (Json.passes_str _)
    (.cons rfl (Json.passes_str _) (.cons rfl (Json.passes_str _)
      (.cons rfl rfl (.cons rfl (Json.passes_str _) .nil))))))

theorem FlowError.passes_toJson (e : FlowError) : e.toJson.Passes σ := by
  have hnode : ((e.node?.map Json.str).getD .null).Passes σ := by
    cases e.node? with
    | none => rfl
    | some s => exact Json.passes_str s
  exact Json.passes_obj.mpr (.cons rfl hnode (.cons rfl (Json.passes_str _) .nil))

theorem passes_entryPresentation (title : String) : (entryPresentation (.str title)).Passes σ :=
  .cons rfl (Json.passes_str _) (.cons rfl (Json.passes_str _) (.cons rfl (Json.passes_str _)
    (.cons rfl (Json.passes_str _) (.cons rfl rfl .nil))))

theorem Spot.passes_presentation (spot : Spot) (stem type : String) (config : Fields) :
    (spot.presentation stem type config).Passes σ := by
  have htext : ∀ {α : Type} (f : α → String) (a? : Option α) (v : Json),
      a?.map (fun a => Json.str (f a)) = some v → v.Passes σ := by
    intro α f a? v hv
    obtain ⟨a, -, rfl⟩ := Option.map_eq_some_iff.mp hv
    exact Json.passes_str _
  simp only [presentation, Fields.passes_append]
  refine ⟨⟨⟨?_, ?_⟩, ?_⟩, ?_⟩
  · exact .cons rfl (Json.passes_str _) (.cons rfl (Json.passes_str _)
      (.cons rfl (Json.passes_str _) (.cons rfl (Json.passes_str _) .nil)))
  · exact .optionalField rfl (htext _ _)
  · exact .optionalField rfl (htext _ _)
  · split
    · exact .cons rfl rfl .nil
    · exact .nil

/-! Flows. -/

section

variable {d : Document} {stem : String} {g : Graph}

theorem Document.mem_capabilities_of_item {k : Nat} {c : Capability}
    (hi : Item.capability k c ∈ d.outline.items) : c ∈ d.capabilities := by
  have hplaced : Item.capability k c ∈ d.outline.items.filter Item.isCapability :=
    List.mem_filter.mpr ⟨hi, rfl⟩
  rw [d.filter_items, List.mem_map] at hplaced
  obtain ⟨p, hp, heq⟩ := hplaced
  cases heq
  exact d.map_placed ▸ List.mem_map_of_mem hp

theorem passes_of_draw (h : d.draw stem = .ok g)
    (hd : ∀ c ∈ d.capabilities, c.Passes σ) : ∀ n ∈ g.nodes, n.Passes σ := by
  intro n hn
  obtain ⟨i, hi, hnode⟩ := exists_of_forall₂_right (nodes_of_draw h) n hn
  cases i with
  | capability k c =>
    cases hnode
    exact ⟨(hd c (Document.mem_capabilities_of_item hi)).metadata, passes_entryPresentation _⟩
  | action k a spot =>
    obtain ⟨s, hs, he⟩ := Document.exists_station_of_item hi
    have hevery : d.Every (Action.Passes σ) := fun c hc => (hd c hc).actions
    have ha : a.Passes σ := hevery.of_mem_stations s hs a (congrArg Prod.snd he)
    obtain ⟨shown, hshown, hnode⟩ := bind_eq_ok.mp hnode
    cases hnode
    refine ⟨ha.config, Fields.passes_append.mpr ⟨spot.passes_presentation _ _ _, ?_⟩⟩
    rcases shownNote_eq_ok.mp hshown with ⟨-, rfl⟩ | ⟨note, -, rfl⟩
    · exact .nil
    · exact .cons rfl (Json.passes_obj.mpr (note.passes_shown _)) .nil

end

namespace Graph

variable {g : Graph}

theorem passes_toJson (h : ∀ n ∈ g.nodes, n.dumped.Passes σ)
    (hplaces : ∀ n ∈ g.nodes, n.position.Passes σ) : g.toJson.Passes σ := by
  have hnodes : (Json.arr (g.nodes.map Node.toJson)).Passes σ := by
    refine Json.passes_arr.mpr fun v hv => ?_
    obtain ⟨n, hn, rfl⟩ := List.mem_map.mp hv
    exact Node.passes_toJson (h n hn) (hplaces n hn)
  have hedges : (Json.arr (g.edges.map Edge.toJson)).Passes σ := by
    refine Json.passes_arr.mpr fun v hv => ?_
    obtain ⟨e, -, rfl⟩ := List.mem_map.mp hv
    exact e.passes_toJson
  exact Json.passes_obj.mpr (.cons rfl hnodes (.cons rfl hedges .nil))

/-- A document that is read back has the keys and the numbers of the flow and of the document it was
drawn from. -/
theorem passes_of_rebuild {fs : Fields} {d : Document} (h : ∀ n ∈ g.nodes, n.Passes σ)
    (hfs : fs.Passes σ) (hd : g.rebuild (.obj fs) = .ok d) : d.toJson.Passes σ := by
  obtain ⟨cs, hcs, hd⟩ := bind_eq_ok.mp hd
  cases hd
  refine Document.passes_toJson (hfs.without _) fun c hc => ?_
  obtain ⟨entry, hentry, hread⟩ := exists_of_forall₂_right (capabilities_eq_ok.mp hcs) c hc
  obtain ⟨as, has, hread⟩ := bind_eq_ok.mp hread
  have hread := Checked.orFault_eq_ok.mp hread
  refine ⟨?_, ?_⟩
  · exact Capability.passes_metadata (h entry (List.mem_of_mem_filter hentry)).capabilityFields hread
  · obtain ⟨-, -, -, hactions⟩ := Capability.ofFieldsWith_eq_accepted.mp hread
    rw [hactions, Action.listEvery_iff]
    intro a ha
    obtain ⟨n, -, hn, hreads⟩ := exists_of_forall₂_right
      (Visit.reads_of_listToActions _ (g.listOf_walk _ _ _) has) a ha
    exact (h n hn).reads hreads

end Graph

end ScriptFlow
