import ScriptFlow.Proofs.Summary
import ScriptFlow.Proofs.TopDown

/-! What is advisory in a flow: where its nodes are, what they read and write, what is shown of them
but notes and the labels of entries, the labels of edges, and all data edges. Flows that differ in
nothing else are read back alike, have the same errors and are laid out alike. Data edges in turn do
not depend on where nodes are. -/

namespace ScriptFlow

/-- Nodes that differ at most in advisory data. -/
structure Node.AgreesWith (n m : Node) : Prop where
  id : n.id = m.id
  kind : n.kind = m.kind
  actionType : n.actionType = m.actionType
  config : n.config = m.config
  note : n.presentation.value "note" = m.presentation.value "note"
  label : n.kind = .entry → n.presentation.value "label" = m.presentation.value "label"

namespace Node.AgreesWith

variable {n m : Node}

theorem core (h : n.AgreesWith m) : n.core = m.core := by
  rw [Node.core, Node.core, h.id, h.kind, h.actionType, h.config]

theorem savedAlike (h : n.AgreesWith m) : n.SavedAlike m where
  id := h.id
  kind := h.kind
  actionType := h.actionType
  config _ := by simp only [savedConfig, h.actionType, h.config, h.note]
  fields hentry := by simp only [Graph.capabilityFields, h.config, h.label hentry]

end Node.AgreesWith

/-- What an edge is, without its label. -/
def Edge.core (e : Edge) : String × String × String × Branch := (e.id, e.source, e.target, e.branch)

/-- Flows that differ at most in advisory data. -/
structure Graph.AgreesWith (g g' : Graph) : Prop where
  nodes : List.Forall₂ Node.AgreesWith g.nodes g'.nodes
  edges : g.structuralEdges.map Edge.core = g'.structuralEdges.map Edge.core

namespace Graph

variable {g g' : Graph}

/-- Where the ids, the entries and the ends of structural edges are the same, so are the places. -/
theorem place?_congr {α : Type} [Coordinate α] (hids : g.ids = g'.ids)
    (htopology : g.topology = g'.topology) (geo : Geometry α) (sweeps : Nat) (id : String) :
    g.place? geo sweeps id = g'.place? geo sweeps id := by
  rw [place?, place?, hids, htopology]

/-- Every node is laid out at the place of its id, wherever it was before. -/
theorem positions_layout (g : Graph) (geo : Geometry Float) (sweeps : Nat) :
    (g.layout geo sweeps).nodes.map (fun n => some n.position) =
      g.ids.map fun id => (g.place? geo sweeps id).map fun a => ⟨a.x, a.y⟩ := by
  rw [layout, ids, List.map_map, List.map_map]
  refine List.map_congr_left fun n hn => ?_
  obtain ⟨a, ha⟩ := exists_place? (List.mem_map_of_mem hn) geo sweeps
  simp only [Function.comp_apply, placeOf?_eq, ha, Option.map_some, Option.getD_some]

/-- So flows with the same ids and the same topology are laid out alike. -/
theorem positions_congr (hids : g.ids = g'.ids) (htopology : g.topology = g'.topology)
    (geo : Geometry Float) (sweeps : Nat) : (g.layout geo sweeps).nodes.map (·.position) =
      (g'.layout geo sweeps).nodes.map (·.position) := by
  refine (Option.some_injective _).list_map ?_
  rw [List.map_map, List.map_map]
  refine (g.positions_layout geo sweeps).trans (Eq.trans ?_ (g'.positions_layout geo sweeps).symm)
  rw [hids]
  exact List.map_congr_left fun id _ => by rw [place?_congr hids htopology]

namespace AgreesWith

theorem ids (h : g.AgreesWith g') : g.ids = g'.ids :=
  map_eq_of_forall₂ h.nodes fun _ _ hnm => hnm.id

theorem ends (h : g.AgreesWith g') :
    g.structuralEdges.map Graph.ends = g'.structuralEdges.map Graph.ends := by
  have hends := congrArg (List.map Prod.snd) h.edges
  rwa [List.map_map, List.map_map] at hends

theorem readAlike (h : g.AgreesWith g') : g.ReadAlike g' where
  nodes := h.nodes.imp fun _ _ hnm => hnm.savedAlike
  target? n _ b _ := by rw [target?_eq, target?_eq, h.ends]

theorem topology_eq (h : g.AgreesWith g') : g.topology = g'.topology := by
  refine topology_congr h.ids (map_eq_of_forall₂ h.nodes fun n m hnm => ?_) h.ends
  rw [Node.isEntry, Node.isEntry, hnm.kind]

/-- The same is wrong with both flows. -/
theorem validate_eq (h : g.AgreesWith g') : g.validate = g'.validate := by
  have hchecked := h.nodes.imp fun _ _ hnm => Node.checkedAlike_of_core hnm.core
  obtain ⟨hentry, hend, hnodes⟩ := errors_congr hchecked (.of_eq h.ends)
  have hends : g.structuralEdges.flatMap g'.endErrors =
      g'.structuralEdges.flatMap g'.endErrors := by
    have hcore : ∀ es : List Edge, es.flatMap g'.endErrors = (es.map Edge.core).flatMap fun t =>
        g'.endErrors ⟨t.1, t.2.1, t.2.2.1, t.2.2.2, false, ""⟩ := by
      intro es
      rw [List.flatMap_map]
      rfl
    rw [hcore, hcore, h.edges]
  rw [validate, validate, hentry, hend, hnodes, hends]

/-- Both flows are laid out at the same places. -/
theorem positions_eq (h : g.AgreesWith g') (geo : Geometry Float) (sweeps : Nat) :
    (g.layout geo sweeps).nodes.map (·.position) =
      (g'.layout geo sweeps).nodes.map (·.position) :=
  positions_congr h.ids h.topology_eq geo sweeps

end AgreesWith

/-- Data edges do not depend on where nodes are. -/
theorem inferDataEdges_moved (p : Node → Point) (nodes : List Node) (es : List Edge) :
    inferDataEdges (nodes.map fun n => { n with position := p n }) es = inferDataEdges nodes es := by
  have hproducer : ∀ v, producer? (nodes.map fun n => { n with position := p n }) v =
      producer? nodes v := by
    intro v
    simp only [producer?, ← List.map_reverse, List.find?_map, Option.map_map, Function.comp_def]
  have huses : ∀ n, usesOf (nodes.map fun n => { n with position := p n })
      { n with position := p n } = usesOf nodes n := by
    intro n
    simp only [usesOf, hproducer]
  simp only [inferDataEdges, List.flatMap_map, huses]

/-- It does not matter whether the data edges are inferred before the layout or after it. -/
theorem annotate_layout (g : Graph) (geo : Geometry Float) (sweeps : Nat) :
    (g.layout geo sweeps).annotate = g.annotate.layout geo sweeps := by
  have htopology : g.annotate.topology = g.topology :=
    topology_congr rfl rfl (congrArg _ g.structuralEdges_annotate)
  have hplaces : g.annotate.placeOf? (g.annotate.topology.place geo sweeps) =
      g.placeOf? (g.topology.place geo sweeps) := by
    rw [htopology]
    rfl
  rw [layout, layout, hplaces]
  refine congrArg (fun es => Graph.mk _ (g.edges ++ es)) ?_
  exact inferDataEdges_moved _ g.nodes g.edges

/-- Moving nodes and adding data edges changes nothing but advisory data. -/
theorem agreesWith_annotate_layout (g : Graph) (geo : Geometry Float) (sweeps : Nat) :
    g.AgreesWith (g.layout geo sweeps).annotate where
  nodes := by
    refine List.forall₂_map_right_iff.mpr (List.forall₂_same.mpr fun n _ => ?_)
    exact ⟨rfl, rfl, rfl, rfl, rfl, fun _ => rfl⟩
  edges := congrArg _ (structuralEdges_annotate (g.layout geo sweeps)).symm

/-- Flows that differ in advisory data alone are read back to one document or fault, have the same
errors in the same order, and have their nodes laid out at the same places. Layout and data edges do
not depend on each other. -/
theorem inert_of_agreesWith :
    (∀ g g' : Graph, g.AgreesWith g' →
      (∀ base, g.rebuild base = g'.rebuild base) ∧
      (∀ extra, g.rebuildWith extra = g'.rebuildWith extra) ∧
      g.validate = g'.validate ∧
      ∀ geo sweeps, (g.layout geo sweeps).nodes.map (·.position) =
        (g'.layout geo sweeps).nodes.map (·.position)) ∧
    ∀ (g : Graph) (geo : Geometry Float) (sweeps : Nat),
      (g.layout geo sweeps).annotate = g.annotate.layout geo sweeps :=
  ⟨fun _ _ h => ⟨h.readAlike.rebuild_eq, h.readAlike.rebuildWith_eq, h.validate_eq,
    h.positions_eq⟩, annotate_layout⟩

/-- The flow with a colour on every node, each of them elsewhere and with other variables, with
other labels on its edges, and behind a data edge between nodes that are not there. -/
def adorned (g : Graph) : Graph where
  nodes := g.nodes.map fun n =>
    { n with position := ⟨7, 7⟩, presentation := ("color", .str "red") :: n.presentation,
             inputs := ["row"], outputs := n.inputs }
  edges := .data "nowhere" "gone" "row" :: g.edges.map fun e => { e with label := "on" }

theorem agreesWith_adorned (g : Graph) : g.AgreesWith g.adorned where
  nodes := by
    rw [adorned, List.forall₂_map_right_iff]
    exact List.forall₂_same.mpr fun _ _ => ⟨rfl, rfl, rfl, rfl, rfl, fun _ => rfl⟩
  edges := by
    have hdata : ¬ (Edge.data "nowhere" "gone" "row").isStructural := by decide
    rw [adorned, structuralEdges, structuralEdges, List.filter_cons_of_neg hdata,
      List.filter_map, List.map_map]
    rfl

theorem inert_of_agreesWith_sample : ∃ g : Graph, Document.sample.draw defaultStem = .ok g ∧
    g.AgreesWith g.adorned ∧ g.edges ≠ g.adorned.edges ∧
      (∀ base, g.rebuild base = g.adorned.rebuild base) ∧
      (∀ extra, g.rebuildWith extra = g.adorned.rebuildWith extra) ∧
      g.validate = g.adorned.validate ∧
      ∀ geo sweeps, (g.layout geo sweeps).nodes.map (·.position) =
        (g.adorned.layout geo sweeps).nodes.map (·.position) := by
  obtain ⟨g, hg⟩ : ∃ g, Document.sample.draw defaultStem = .ok g := ⟨_, rfl⟩
  have hlonger : g.edges ≠ g.adorned.edges := fun heq => by
    have := congrArg List.length heq
    simp [adorned] at this
  exact ⟨g, hg, g.agreesWith_adorned, hlonger, inert_of_agreesWith.1 g _ g.agreesWith_adorned⟩

end Graph

end ScriptFlow
