import ScriptFlow.Proofs.Codec
import ScriptFlow.Proofs.Decoding
import ScriptFlow.Validation

/-! What the check says of a drawn flow: that it has no entry if there is no capability, and which
required fields of actions are missing. Nothing is wrong with its edges, whatever the document. -/

namespace ScriptFlow

namespace Action

/-- The action has the required fields of its type. -/
def Complete (a : Action) : Prop :=
  ∀ r ∈ Catalog.required a.type, r.isMissing a.config = false

end Action

theorem Node.fieldErrors_eq_nil {n : Node} :
    n.fieldErrors = [] ↔ ∀ r ∈ Catalog.required n.actionType, r.isMissing n.config = false := by
  simp [fieldErrors]

/-- A flow without errors has an entry, edges whose ends are there, and nodes without errors. -/
theorem Graph.validate_eq_nil {g : Graph} : g.validate = [] ↔ g.nodes.any (·.isEntry) = true ∧
    (∀ e ∈ g.structuralEdges, g.endErrors e = []) ∧
      ∀ n ∈ g.nodes, n.errors g.structuralEdges = [] := by
  simp only [validate, List.append_eq_nil_iff, List.flatMap_eq_nil_iff, ite_eq_left_iff,
    List.cons_ne_nil, imp_false, not_not, and_assoc]

/-- No port is taken by two of the edges. -/
theorem Graph.branchCount_le_one {es : List Edge} (h : (es.map Edge.port).Nodup) (id : String)
    {b : Branch} (hb : b ≠ .loopBack) : branchCount es id b ≤ 1 := by
  have hport : ∀ e ∈ es, (e.source == id && e.branch == b) = true →
      (e.port == (id, b)) = true := by
    intro e _ he
    simp only [Bool.and_eq_true, beq_iff_eq] at he ⊢
    rw [Edge.port, he.1, he.2, if_neg hb]
  calc branchCount es id b
      ≤ es.countP (·.port == (id, b)) := List.countP_mono_left hport
    _ = (es.map Edge.port).count (id, b) := by rw [List.count_eq_countP, List.countP_map]; rfl
    _ ≤ 1 := List.nodup_iff_count_le_one.mp h (id, b)

section

variable {stem : String} {d : Document} {g : Graph}

theorem structuralEdges_of_draw (h : d.draw stem = .ok g) : g.structuralEdges = g.edges := by
  exact List.filter_eq_self.mpr fun e he => isStructural_of_draw h he

/-- Nothing is wrong with the ends of edges. -/
theorem endErrors_of_draw (h : d.draw stem = .ok g) : g.edges.flatMap g.endErrors = [] := by
  refine List.flatMap_eq_nil_iff.mpr ?_
  intro e he
  obtain ⟨hs, ht, -⟩ := joined_of_draw h he
  simp [Graph.endErrors, hs, ht]

/-- No outcome and no body is left twice. -/
theorem branchErrors_of_draw (h : d.draw stem = .ok g) (n : Node) :
    n.branchErrors g.edges = [] := by
  have hcount : ∀ b, b ≠ .loopBack → Graph.branchCount g.edges n.id b ≤ 1 :=
    fun b hb => Graph.branchCount_le_one (nodup_edge_ports h) n.id hb
  have htrue := hcount .whenTrue (by decide)
  have hfalse := hcount .whenFalse (by decide)
  have hbody := hcount .body (by decide)
  unfold Node.branchErrors
  split
  · simp [Nat.not_lt.mpr htrue, Nat.not_lt.mpr hfalse]
  · simp [Nat.not_lt.mpr hbody]
  · rfl

/-- A node of a drawn flow stands for a capability or for an action. -/
theorem core_of_draw (h : d.draw stem = .ok g) {n : Node} (hn : n ∈ g.nodes) :
    n.isEntry ∧ n.actionType = Catalog.capabilityType ∨ ¬ n.isEntry ∧
      ∃ s ∈ d.stations, ∃ a, s.action? = some a ∧ n.actionType = a.type ∧ n.config = a.config := by
  obtain ⟨i, hi, hnode⟩ := exists_of_forall₂_right (nodes_of_draw h) n hn
  have hentry := Item.isEntry_of_node hnode
  cases i with
  | capability k c =>
    cases hnode
    exact Or.inl ⟨rfl, rfl⟩
  | action k a spot =>
    obtain ⟨s, hs, hnumbered⟩ := Document.exists_station_of_item hi
    have hcore := Item.core_of_node hnode
    simp only [Node.core, Prod.mk.injEq] at hcore
    have hne : ¬ n.isEntry := by simp [← hentry, Item.isCapability]
    exact Or.inr ⟨hne, s, hs, a, congrArg Prod.snd hnumbered, hcore.2.2.1, hcore.2.2.2⟩

/-- No field is required of an entry. -/
theorem errors_of_draw (h : d.draw stem = .ok g) {n : Node} (hn : n ∈ g.nodes) :
    n.errors g.edges = n.fieldErrors := by
  rcases core_of_draw h hn with ⟨hentry, htype⟩ | ⟨hentry, -⟩
  · rw [Node.errors, if_pos hentry, Node.fieldErrors, htype]
    rfl
  · obtain ⟨e, he, htarget, -⟩ := led_to_of_draw h hn hentry
    have hend : Graph.isEnd g.edges n.id = true :=
      List.any_eq_true.mpr ⟨e, he, by simp [htarget]⟩
    rw [Node.errors, if_neg hentry, if_pos hend, branchErrors_of_draw h]
    rfl

theorem any_isEntry_of_draw (h : d.draw stem = .ok g) :
    g.nodes.any (·.isEntry) = true ↔ d.capabilities ≠ [] := by
  have hlen : g.entries.length = d.capabilities.length := by
    rw [← (entries_of_draw h).length_eq, ← d.map_placed, List.length_map]
  rw [List.any_eq_true, ← List.length_pos_iff, ← hlen, List.length_pos_iff_exists_mem]
  simp only [Graph.entries, List.mem_filter]

/-- What the check of a drawn flow reports. -/
theorem validate_draw (h : d.draw stem = .ok g) :
    g.validate = (if d.capabilities = [] then [.noEntry] else []) ++
      g.nodes.flatMap Node.fieldErrors := by
  have hnodes : g.nodes.flatMap (·.errors g.edges) = g.nodes.flatMap Node.fieldErrors :=
    List.flatMap_congr fun n hn => errors_of_draw h hn
  have hentry : (if g.nodes.any (·.isEntry) then [] else [FlowError.noEntry]) =
      if d.capabilities = [] then [.noEntry] else [] := by
    have hany := any_isEntry_of_draw h
    by_cases hd : d.capabilities = []
    · rw [if_pos hd, if_neg fun ha => hany.mp ha hd]
    · rw [if_neg hd, if_pos (hany.mpr hd)]
  rw [Graph.validate, structuralEdges_of_draw h, endErrors_of_draw h, hnodes, hentry,
    List.append_nil]

/-- A drawn flow is valid if there is a capability and no action lacks a field. -/
theorem validate_draw_eq_nil (h : d.draw stem = .ok g) :
    g.validate = [] ↔ d.capabilities ≠ [] ∧ d.Every Action.Complete := by
  have hfields : (∀ n ∈ g.nodes, n.fieldErrors = []) ↔ d.Every Action.Complete := by
    rw [Document.every_iff_stations]
    constructor
    · intro hn s hs a ha
      obtain ⟨n, hmem, spot, hnode⟩ := exists_action_node h hs ha
      have hcore := Item.core_of_node hnode
      simp only [Node.core, Prod.mk.injEq] at hcore
      have hcomplete := Node.fieldErrors_eq_nil.mp (hn n hmem)
      rwa [hcore.2.2.1, hcore.2.2.2] at hcomplete
    · intro hc n hn
      rw [Node.fieldErrors_eq_nil]
      rcases core_of_draw h hn with ⟨-, htype⟩ | ⟨-, s, hs, a, ha, htype, hconfig⟩
      · rw [htype]
        exact fun r hr => absurd hr List.not_mem_nil
      · rw [htype, hconfig]
        exact hc s hs a ha
  rw [validate_draw h, List.append_eq_nil_iff, List.flatMap_eq_nil_iff, hfields]
  refine and_congr_left fun _ => ?_
  by_cases hd : d.capabilities = [] <;> simp [hd]

end

end ScriptFlow
