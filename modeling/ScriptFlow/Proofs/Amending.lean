import ScriptFlow.Proofs.Integrity
import ScriptFlow.Proofs.Refreshing
import ScriptFlow.Proofs.Rewriting
import ScriptFlow.Proofs.RoundTrip
import ScriptFlow.Proofs.TopDown
import ScriptFlow.Proofs.Valid

/-! Editing a leaf in a session and editing it in the document come to the same. The refreshed node
is the one that the changed leaf is drawn as, no other node shows the leaf, and the layout and the
data edges are computed of what both flows have in common. -/

namespace ScriptFlow

/-- The node after an update of the configuration of the nodes with an id. -/
def Node.amended (id : String) (changes : Fields) (n : Node) : Except Fault Node :=
  if n.id = id then { n with config := n.config.update changes : Node }.refresh else .ok n

/-- Wherever `n` is moved to, the update makes `m` of it, and the layout does not tell them
apart. -/
structure Node.AmendedTo (id : String) (changes : Fields) (n m : Node) : Prop where
  id_eq : n.id = m.id
  kind : n.kind = m.kind
  position : n.position = m.position
  amended : ∀ position, ({ n with position } : Node).amended id changes = .ok { m with position }

namespace Graph

variable {g g' : Graph} {id : String} {changes : Fields}

theorem updateConfig_of_amendedTo (hid : g.hasNode id)
    (h : List.Forall₂ (Node.AmendedTo id changes) g.nodes g'.nodes) :
    g.updateConfig id changes = .ok { g with nodes := g'.nodes } := by
  have hrequire : g.requireNode id = .ok () := if_pos hid
  have hnodes : g.nodes.mapM (Node.amended id changes) = .ok g'.nodes := by
    refine mapM_eq_ok.mpr (h.imp fun n m hnm => ?_)
    refine (hnm.amended n.position).trans ?_
    rw [hnm.position]
  exact bind_eq_ok.mpr ⟨(), hrequire, bind_eq_ok.mpr ⟨g'.nodes, hnodes, rfl⟩⟩

/-- Flows that differ by an update are laid out alike. -/
theorem arrange_of_amendedTo (h : List.Forall₂ (Node.AmendedTo id changes) g.nodes g'.nodes)
    (hedges : g.edges = g'.edges) (settings : Settings) :
    List.Forall₂ (Node.AmendedTo id changes) (g.arrange settings).nodes
      (g'.arrange settings).nodes := by
  have hids : g.ids = g'.ids := map_eq_of_forall₂ h fun n m hnm => hnm.id_eq
  have htopology : g.topology = g'.topology := by
    refine topology_congr hids (map_eq_of_forall₂ h fun n m hnm => ?_) ?_
    · rw [Node.isEntry, Node.isEntry, hnm.kind]
    · rw [structuralEdges, structuralEdges, hedges]
  unfold arrange layout
  rw [List.forall₂_map_left_iff, List.forall₂_map_right_iff, htopology]
  refine h.imp fun n m hnm => ⟨hnm.id_eq, hnm.kind, ?_, hnm.amended⟩
  dsimp only
  rw [placeOf?, placeOf?, hids, hnm.id_eq, hnm.position]

end Graph

namespace Document

/-- The document with the fields of the action numbered `k` updated. -/
def amend (k : Nat) (changes : Fields) (d : Document) : Document :=
  d.rewrite fun n a => if n = k then a.others.update changes else a.others

variable {d : Document} {stem : String} {k : Nat} {t : String} {fields changes : Fields}
  {spot : Spot}

theorem item_eq {i j : Item} (hi : i ∈ d.outline.items) (hj : j ∈ d.outline.items)
    (h : i.numbered.1 = j.numbered.1) : i = j :=
  List.inj_on_of_nodup_map (d.number_items ▸ d.nodup_number_stations) hi hj h

/-- The leaf stands in the document with its fields updated. -/
theorem mem_items_amend (h : Item.action k (.leaf t fields) spot ∈ d.outline.items) :
    Item.action k (.leaf t (fields.update changes)) spot ∈ (d.amend k changes).outline.items := by
  rw [amend, items_rewrite, List.mem_map]
  refine ⟨_, h, ?_⟩
  simp only [Item.rewrite, Action.rewrite, Action.others, if_true]

/-- Other fields in the actions of its bodies do not change what is drawn of an action. -/
theorem node_rewrite {f : Nat → Action → Fields} {n : Nat} {a : Action} (hf : f n a = a.others)
    (spot : Spot) (stem : String) :
    (Item.action n (a.rewrite f n) spot).node stem = (Item.action n a spot).node stem := by
  cases a with
  | leaf =>
    rw [Action.rewrite, hf]
    rfl
  | branch =>
    rw [Action.rewrite, hf]
    rfl
  | loop =>
    rw [Action.rewrite, hf]
    rfl

/-- Nodes are drawn at the origin. -/
theorem position_of_node {i : Item} {n : Node} (hn : i.node stem = .ok n) : n.position = .zero := by
  cases i with
  | capability j c =>
    cases hn
    rfl
  | action j a spot =>
    obtain ⟨shown, -, hn⟩ := bind_eq_ok.mp hn
    cases hn
    rfl

/-- The nodes of a document and of the one with a changed leaf. -/
theorem exists_node_amend (hleaf : Item.action k (.leaf t fields) spot ∈ d.outline.items)
    (hkeys : ∀ c ∈ changes, c.1 ≠ "type" ∧ c.1 ≠ noteKey) {i : Item}
    (hi : i ∈ d.outline.items) {n : Node} (hn : i.node stem = .ok n) : ∃ m,
      (i.rewrite fun n a => if n = k then a.others.update changes else a.others).node stem = .ok m ∧
        n.AmendedTo (nodeId stem k) changes m := by
  have hid : n.id = nodeId stem i.numbered.1 := congrArg Prod.fst (Item.id_kind_of_node hn)
  by_cases hk : i.numbered.1 = k
  · -- the changed leaf
    obtain rfl := item_eq hi hleaf hk
    obtain ⟨m, hm, hrefresh⟩ := refresh_of_node hn hkeys
    obtain ⟨hid', hkind', -⟩ := drawn_of_node hm
    obtain ⟨-, hkind, -⟩ := drawn_of_node hn
    refine ⟨m, ?_, hid.trans hid'.symm, hkind.trans hkind'.symm,
      (position_of_node hn).trans (position_of_node hm).symm, fun position => ?_⟩
    · simpa only [Item.rewrite, Action.rewrite, Action.others, if_true] using hm
    · exact (if_pos hid).trans (hrefresh position)
  · -- another item
    have hne : n.id ≠ nodeId stem k := by
      rw [hid]
      exact fun h => hk (nodeId_inj.mp h)
    refine ⟨n, ?_, rfl, rfl, rfl, fun position => if_neg hne⟩
    cases i with
    | capability j c => exact hn
    | action j a spot' => rwa [Item.rewrite, node_rewrite (if_neg hk)]

/-- The changed document is drawn as the same flow but for the update. -/
theorem exists_draw_amend {g : Graph} (h : d.draw stem = .ok g)
    (hleaf : Item.action k (.leaf t fields) spot ∈ d.outline.items)
    (hkeys : ∀ c ∈ changes, c.1 ≠ "type" ∧ c.1 ≠ noteKey) :
    ∃ g', (d.amend k changes).draw stem = .ok g' ∧ g.edges = g'.edges ∧
      List.Forall₂ (Node.AmendedTo (nodeId stem k) changes) g.nodes g'.nodes := by
  obtain ⟨nodes, hnodes, hamended⟩ := exists_forall₂_of_forall₂ (nodes_of_draw h)
    fun i hi n hn => exists_node_amend hleaf hkeys hi hn
  exact ⟨_, draw_rewrite hnodes, edges_of_draw h, hamended⟩

end Document

/-- Other nodes put into an annotated flow are annotated as they would be on their own. -/
theorem Graph.annotate_of_nodes {g g' : Graph} (hg : g.structuralEdges = g.edges)
    (hedges : g.edges = g'.edges) :
    ({ g.annotate with nodes := g'.nodes } : Graph).stripDataEdges.annotate = g'.annotate := by
  have hstrip : g.annotate.structuralEdges = g'.edges := by
    rw [structuralEdges_annotate, hg, hedges]
  exact congrArg (fun es => annotate ⟨g'.nodes, es⟩) hstrip

/-- After a leaf is updated in a session over a document, its flow is that of the document with the
fields of the leaf updated. -/
theorem Session.update_leaf {d : Document} {settings : Settings} {s : Session}
    (h : start d settings = .ok s) {k : Nat} {t : String} {fields : Fields} {spot : Spot}
    (hleaf : Item.action k (.leaf t fields) spot ∈ d.outline.items) {changes : Fields}
    (hkeys : ∀ c ∈ changes, c.1 ≠ "type" ∧ c.1 ≠ noteKey) (drawn : Nat) :
    Item.action k (.leaf t (fields.update changes)) spot ∈ (d.amend k changes).outline.items ∧
      ∃ s' change, s.edit drawn (.update (nodeId defaultStem k) changes) =
        (drawn, .ok (s', change)) ∧ (d.amend k changes).load settings = .ok s'.graph := by
  refine ⟨Document.mem_items_amend hleaf, ?_⟩
  obtain ⟨loaded, hload, h⟩ := bind_eq_ok.mp h
  cases h
  obtain ⟨g, hg, hload⟩ := bind_eq_ok.mp hload
  cases hload
  obtain ⟨g', hg', hedges, hamended⟩ := Document.exists_draw_amend hg hleaf hkeys
  have hid : (g.arrange settings).annotate.hasNode (nodeId defaultStem k) := by
    obtain ⟨station, hstation, hnumbered⟩ := Document.exists_station_of_item hleaf
    have hdrawn := hasNode_of_station hg hstation (congrArg Prod.fst hnumbered).symm
    have hids : (g.arrange settings).nodes.map (·.id) = g.nodes.map (·.id) := g.ids_layout _ _
    rwa [Graph.hasNode_iff, Graph.annotate, hids, ← Graph.hasNode_iff]
  have hupdate := Graph.updateConfig_of_amendedTo hid
    (Graph.arrange_of_amendedTo hamended hedges settings)
  have hdrawn := structuralEdges_of_draw hg
  have hstructural : (g.arrange settings).structuralEdges = (g.arrange settings).edges := hdrawn
  have hedges' : (g.arrange settings).edges = (g'.arrange settings).edges := hedges
  refine ⟨_, .ofGraph { (g.arrange settings).annotate with nodes := (g'.arrange settings).nodes },
    congrArg (fun result => (drawn, Except.map _ (Change.ofGraph <$> result))) hupdate, ?_⟩
  rw [load_of_draw hg', ← Graph.annotate_of_nodes hstructural hedges']
  exact congrArg Except.ok (History.current_record _ _ _).symm

/-- The leaf after the loop is made to read the variable of the loop. -/
theorem Session.update_leaf_sample : ∃ s, start Document.sample {} = .ok s ∧
    ∃ s' change, s.edit 0 (.update (nodeId defaultStem 6) [("source", .str "row")]) =
        (0, .ok (s', change)) ∧
      (Document.sample.amend 6 [("source", .str "row")]).load {} = .ok s'.graph := by
  obtain ⟨s, hs⟩ : ∃ s, start Document.sample {} = .ok s := ⟨_, rfl⟩
  have hleaf : Item.action 6 (.leaf "log" [("message", .str "done"), (noteKey,
      .obj [("content", .str "Says so."), ("configHash", .str "0123456789ab")])]) (.top "main") ∈
        Document.sample.outline.items :=
    .tail _ (.tail _ (.tail _ (.tail _ (.tail _ (.head _)))))
  exact ⟨s, hs, (update_leaf hs hleaf (by decide) 0).2⟩

end ScriptFlow
