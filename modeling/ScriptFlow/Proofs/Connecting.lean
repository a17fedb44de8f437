import ScriptFlow.Proofs.Ids
import ScriptFlow.Proofs.Integrity

/-! Connecting two nodes. An edge that is there already is told by its id, so an edge between other
nodes, or with another tag, stands in the way of a new one if its id can be misread. Otherwise the
new edge comes last, and it goes again under its id. -/

namespace ScriptFlow

namespace Edge

/-- The edge leads from `s` to `t` with the tag `b`. -/
def Joins (e : Edge) (s t : String) (b : Branch) : Prop :=
  e.source = s ∧ e.target = t ∧ e.branch = b

/-- The id of the edge is also that of an edge from `s` to `t` with the tag `b`. -/
def Crosses (e : Edge) (s t : String) (b : Branch) : Prop :=
  Misread e.source e.target e.branch s t b ∨ Misread s t b e.source e.target e.branch

theorem same_id_iff (e : Edge) {s t : String} {b : Branch} :
    structuralId e.source e.target e.branch = structuralId s t b ↔
      e.Joins s t b ∨ e.Crosses s t b :=
  structuralId_eq_iff

end Edge

namespace Graph

/-- Every edge has the id of its ends and of its tag or a variable. -/
structure Named (g : Graph) : Prop where
  structural : ∀ e ∈ g.structuralEdges, e.id = Edge.structuralId e.source e.target e.branch
  data : ∀ e ∈ g.dataEdges, ∃ v, e.id = Edge.dataId e.source e.target v

/-- The graph with one more structural edge at the end. -/
def withEdge (g : Graph) (s t : String) (b : Branch) : Graph :=
  { g with edges := g.edges ++ [.structural s t b] }

variable {g : Graph} {s t : String} {b : Branch}

theorem requireNode_eq_ok {id : String} (h : g.hasNode id) : g.requireNode id = .ok () :=
  if_pos h

/-- Two different nodes that are there are connected unless the id is taken. -/
theorem connect?_of_ne (hs : g.hasNode s) (ht : g.hasNode t) (hne : s ≠ t) :
    g.connect? s t b = .ok (if ∃ e ∈ g.edges, e.id = Edge.structuralId s t b then none
      else some (g.withEdge s t b)) := by
  unfold connect?
  rw [requireNode_eq_ok hs, requireNode_eq_ok ht]
  simp only [bind, Except.bind, hne, decide_false, Bool.false_or, List.any_eq_true, beq_iff_eq]
  split
  · next hx => exact congrArg Except.ok (if_pos hx).symm
  · next hx => exact congrArg Except.ok (if_neg hx).symm

/-- The id of an edge that is not yet there can be that of a structural edge only. -/
theorem Named.exists_id_iff (h : g.Named) :
    (∃ e ∈ g.edges, e.id = Edge.structuralId s t b) ↔
      ∃ e ∈ g.structuralEdges, e.Joins s t b ∨ e.Crosses s t b := by
  have hiff : ∀ e ∈ g.structuralEdges,
      (e.id = Edge.structuralId s t b ↔ e.Joins s t b ∨ e.Crosses s t b) := by
    intro e he
    rw [h.structural e he, e.same_id_iff]
  constructor
  · rintro ⟨e, he, hid⟩
    cases hdata : e.isData with
    | true =>
      obtain ⟨v, hv⟩ := h.data e (mem_dataEdges.mpr ⟨he, hdata⟩)
      exact absurd (hid.symm.trans hv) (Edge.structuralId_ne_dataId _ _ _ _ _ _)
    | false =>
      have he := mem_structuralEdges.mpr ⟨he, by simp [Edge.isStructural, hdata]⟩
      exact ⟨e, he, (hiff e he).mp hid⟩
  · rintro ⟨e, he, hx⟩
    exact ⟨e, (mem_structuralEdges.mp he).1, (hiff e he).mpr hx⟩

/-- An edge whose id no other edge has can be taken away again. -/
theorem disconnect_withEdge (h : ∀ e ∈ g.edges, e.id ≠ Edge.structuralId s t b) :
    (g.withEdge s t b).disconnect (Edge.structuralId s t b) = g := by
  have hold : g.edges.filter (·.id != Edge.structuralId s t b) = g.edges :=
    List.filter_eq_self.mpr fun e he => bne_iff_ne.mpr (h e he)
  have hnew : [Edge.structural s t b].filter (·.id != Edge.structuralId s t b) = [] := by
    simp [Edge.structural]
  rw [disconnect, withEdge, List.filter_append, hold, hnew, List.append_nil]

/-- Two different nodes are connected by one more edge, which can be taken away again, unless an edge
leads from the one to the other with this tag, or the id of an edge can be misread so. That is never
the case where the ids of nodes are separate. -/
theorem connect_exact (h : g.Named) (hs : g.hasNode s) (ht : g.hasNode t) (hne : s ≠ t)
    (b : Branch) :
    ((∃ e ∈ g.structuralEdges, e.Joins s t b ∨ e.Crosses s t b) → g.connect? s t b = .ok none) ∧
      ((∀ e ∈ g.structuralEdges, ¬ e.Joins s t b ∧ ¬ e.Crosses s t b) →
        g.connect? s t b = .ok (some (g.withEdge s t b)) ∧
          (g.withEdge s t b).disconnect (Edge.structuralId s t b) = g) ∧
      (Separate (fun id => id = s ∨ id = t ∨
          ∃ e ∈ g.structuralEdges, id = e.source ∨ id = e.target) →
        ∀ e ∈ g.structuralEdges, ¬ e.Crosses s t b) := by
  have hconnect := connect?_of_ne (b := b) hs ht hne
  refine ⟨?_, ?_, ?_⟩
  · intro hx
    rw [hconnect, if_pos (h.exists_id_iff.mpr hx)]
  · intro hx
    have hfree : ¬ ∃ e ∈ g.edges, e.id = Edge.structuralId s t b := by
      rw [h.exists_id_iff]
      rintro ⟨e, he, hjoins | hcrosses⟩
      · exact (hx e he).1 hjoins
      · exact (hx e he).2 hcrosses
    rw [hconnect, if_neg hfree]
    exact ⟨rfl, disconnect_withEdge fun e he hid => hfree ⟨e, he, hid⟩⟩
  · rintro hsep e he (hm | hm)
    · exact hsep.not_misread (Or.inr (Or.inr ⟨e, he, Or.inl rfl⟩))
        (Or.inr (Or.inr ⟨e, he, Or.inr rfl⟩)) (Or.inl rfl) (Or.inr (Or.inl rfl)) hm
    · exact hsep.not_misread (Or.inl rfl) (Or.inr (Or.inl rfl))
        (Or.inr (Or.inr ⟨e, he, Or.inl rfl⟩)) (Or.inr (Or.inr ⟨e, he, Or.inr rfl⟩)) hm

/-- A graph of actions with these ids. -/
def bare (ids : List String) (edges : List Edge) : Graph :=
  ⟨ids.map fun id => ⟨id, .action, "", [], .zero, [], [], []⟩, edges⟩

theorem connect_exact_beside :
    let g := bare ["a", "a_b", "true"] [.structural "a" "true" .none, .data "a" "a_b" "_true"]
    g.Named ∧ g.connect? "a_b" "true" .whenTrue = .ok (some (g.withEdge "a_b" "true" .whenTrue)) ∧
      (g.withEdge "a_b" "true" .whenTrue).disconnect "edge_a_b_true_true" = g := by
  intro g
  have hnamed : g.Named := by
    refine ⟨by decide, fun e he => ?_⟩
    obtain rfl := List.mem_singleton.mp he
    exact ⟨"_true", rfl⟩
  have hfree : ∀ e ∈ g.structuralEdges,
      ¬ e.Joins "a_b" "true" .whenTrue ∧ ¬ e.Crosses "a_b" "true" .whenTrue := by
    intro e he
    obtain rfl := List.mem_singleton.mp he
    rw [← not_or, ← Edge.same_id_iff]
    decide
  exact ⟨hnamed, (connect_exact hnamed rfl rfl (by decide) .whenTrue).2.1 hfree⟩

/-- Two nodes are not connected since other nodes are, whose ids are cut in another place. -/
theorem not_connected_crossed :
    let g := bare ["a", "b_c", "a_b", "c"] [.structural "a" "b_c" .none]
    g.Named ∧ g.hasNode "a_b" ∧ g.hasNode "c" ∧
      (∀ e ∈ g.structuralEdges, ¬ e.Joins "a_b" "c" .none) ∧
      g.connect? "a_b" "c" .none = .ok none := by
  intro g
  refine ⟨⟨by decide, fun e he => absurd he List.not_mem_nil⟩, rfl, rfl, ?_, rfl⟩
  intro e he
  obtain rfl := List.mem_singleton.mp he
  rintro ⟨hsource, -⟩
  exact absurd hsource (by decide)

end Graph

end ScriptFlow
