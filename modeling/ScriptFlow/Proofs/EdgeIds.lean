import ScriptFlow.Proofs.Integrity

/-! The ids of the edges of a drawn flow. No two links are written as one id, so no edge is taken for
one that is there already, and computing the data edges brings no id twice. -/

namespace ScriptFlow

/-- What is written of an edge tells which edge it is, among edges between the ids in question. -/
structure Edge.ToldById (IsId : String → Prop) : Prop where
  structural : ∀ {s t s' t' b b'}, IsId s → IsId t → IsId s' → IsId t' →
    structuralId s t b = structuralId s' t' b' → s = s' ∧ t = t' ∧ b = b'
  data : ∀ {s t s' t' v v'}, IsId s → IsId t → IsId s' → IsId t' →
    dataId s t v = dataId s' t' v' → s = s' ∧ t = t' ∧ v = v'
  apart : ∀ s t b s' t' v, structuralId s t b ≠ dataId s' t' v

theorem Separate.toldById {IsId : String → Prop} (h : Separate IsId) : Edge.ToldById IsId :=
  ⟨h.structuralId_inj, h.dataId_inj, Edge.structuralId_ne_dataId⟩

/-- A data edge that is computed has the id of its ends and its variable. -/
theorem Graph.eq_data_of_mem_inferDataEdges {g : Graph} {e : Edge}
    (h : e ∈ inferDataEdges g.nodes g.edges) : e = .data e.source e.target e.label := by
  obtain ⟨u, -, rfl, -⟩ := mem_dataEdgesFor h
  rfl

/-- One data edge at most is computed for each pair of nodes, so none has the id of another. -/
theorem Edge.ToldById.nodup_inferDataEdges {g : Graph} (h : ToldById (· ∈ g.ids)) :
    ((inferDataEdges g.nodes g.edges).map (·.id)).Nodup := by
  refine List.Nodup.map_on ?_ (nodup_dataEdgesFor _ _).of_map
  intro e he f hf hid
  obtain ⟨-, hes, het, -⟩ := Graph.mem_inferDataEdges he
  obtain ⟨-, hfs, hft, -⟩ := Graph.mem_inferDataEdges hf
  have heq := Graph.eq_data_of_mem_inferDataEdges he
  have hfq := Graph.eq_data_of_mem_inferDataEdges hf
  rw [heq, hfq] at hid
  obtain ⟨hs, ht, hv⟩ := h.data (Graph.hasNode_iff.mp hes) (Graph.hasNode_iff.mp het)
    (Graph.hasNode_iff.mp hfs) (Graph.hasNode_iff.mp hft) hid
  rw [heq, hfq, hs, ht, hv]

section

variable {d : Document} {stem : String} {g : Graph}

/-- The nodes of a drawn flow are numbered, so none has the id of another one with more to it. -/
theorem separate_of_draw (h : d.draw stem = .ok g) : Separate (· ∈ g.ids) := by
  refine (separate_nodeId stem).mono fun id hid => ?_
  rw [Graph.ids, ids_of_draw h] at hid
  obtain ⟨s, -, rfl⟩ := List.mem_map.mp hid
  exact ⟨s.number, rfl⟩

theorem nodup_edge_ids_of_draw (h : d.draw stem = .ok g) : (g.edges.map (·.id)).Nodup := by
  rw [edges_of_draw h, List.map_map]
  exact d.nodup_links.map (Link.edge_id_injective stem)

/-- Whatever the stem and the variables hold, no two edges between nodes of a drawn flow have one id.
So every link has its edge, and the ids of edges differ also when the data edges are there. -/
theorem edges_told_of_draw (h : d.draw stem = .ok g) :
    Edge.ToldById (· ∈ g.ids) ∧ g.edges = d.outline.links.map (Link.edge stem) ∧
      (g.annotate.edges.map (·.id)).Nodup := by
  have htold := (separate_of_draw h).toldById
  refine ⟨htold, edges_of_draw h, ?_⟩
  rw [Graph.annotate, List.map_append, List.nodup_append]
  refine ⟨nodup_edge_ids_of_draw h, htold.nodup_inferDataEdges, ?_⟩
  intro id hid id' hid' heq
  obtain ⟨e, he, rfl⟩ := List.mem_map.mp hid
  obtain ⟨f, hf, rfl⟩ := List.mem_map.mp hid'
  obtain ⟨-, -, -, -, l, -, rfl, -⟩ := mem_edges h he
  rw [Graph.eq_data_of_mem_inferDataEdges hf] at heq
  exact htold.apart _ _ _ _ _ _ heq

/-- A script whose actions pass variables on, the names of which look like ends of ids. -/
def Document.passing : Document :=
  ⟨[⟨"main", none, none, none, [],
    [.leaf "get" [("saveAs", .str "_2")],
     .branch none [] [.leaf "set" [("variable", .str "1__2"), ("value", .str "\x7b\x7b_2\x7d\x7d")]]
      [.leaf "log" [("text", .str "\x7b\x7b_2\x7d\x7d")]]]⟩], []⟩

theorem edges_told_of_draw_passing : ∃ g, Document.passing.draw "true_1" = .ok g ∧
    g.edges.map (·.id) = ["edge_true_1_1_true_1_2", "edge_true_1_2_true_1_3",
      "edge_true_1_3_true_true_1_4", "edge_true_1_3_false_true_1_5"] ∧
    (g.annotate.edges.map (·.id)).Nodup := by
  obtain ⟨g, hg⟩ : ∃ g, Document.passing.draw "true_1" = .ok g := ⟨_, rfl⟩
  refine ⟨g, hg, ?_, (edges_told_of_draw hg).2.2⟩
  cases hg
  decide +kernel

end

end ScriptFlow
