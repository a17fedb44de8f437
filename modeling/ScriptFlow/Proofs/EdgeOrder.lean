import ScriptFlow.Proofs.Summary
import ScriptFlow.Proofs.Valid

/-! What the order of edges tells. A walk takes the first edge from a node with a tag. The check
rejects a second edge for an outcome of a condition or for the body of a loop, but not a second plain
edge. So the edges of a flow without errors can be reordered unless two of its plain edges leave a
node for different ones. -/

namespace ScriptFlow

theorem eq_of_countP_le_one {α : Type} {p : α → Bool} {xs : List α} (h : xs.countP p ≤ 1) {x y : α}
    (hx : x ∈ xs) (hy : y ∈ xs) (hpx : p x = true) (hpy : p y = true) : x = y := by
  rw [List.countP_eq_length_filter] at h
  have hmem : ∀ {z}, z ∈ xs → p z = true → z ∈ xs.filter p := fun hz hp =>
    List.mem_filter.mpr ⟨hz, hp⟩
  rcases hf : xs.filter p with _ | ⟨z, _ | ⟨w, zs⟩⟩
  · exact absurd (hf ▸ hmem hx hpx) List.not_mem_nil
  · have hxz := List.mem_singleton.mp (hf ▸ hmem hx hpx)
    have hyz := List.mem_singleton.mp (hf ▸ hmem hy hpy)
    exact hxz.trans hyz.symm
  · simp [hf] at h

namespace Graph

variable {g : Graph} {n : Node} {b : Branch}

/-- All plain edges from a node that is no condition lead to the same one. -/
def Unforked (g : Graph) : Prop :=
  ∀ n ∈ g.nodes, n.kind ≠ .condition → ∀ e ∈ g.structuralEdges, ∀ e' ∈ g.structuralEdges,
    e.source = n.id → e'.source = n.id → e.branch = .none → e'.branch = .none →
      e.target = e'.target

/-- In a flow without errors no outcome and no body is left twice. -/
theorem branchCount_le_one_of_valid (hv : g.validate = []) (hn : n ∈ g.nodes)
    (hb : b ∈ n.kind.ways) (hne : b ≠ .none) :
    branchCount g.structuralEdges n.id b ≤ 1 := by
  have herrors := (validate_eq_nil.mp hv).2.2 n hn
  have hentry : ¬ n.isEntry := by
    intro he
    rw [beq_iff_eq.mp he] at hb
    exact hne (List.mem_singleton.mp hb)
  rw [Node.errors, if_neg hentry, List.append_eq_nil_iff, List.append_eq_nil_iff] at herrors
  have hbranches := herrors.1.2
  unfold Node.branchErrors at hbranches
  cases hkind : n.kind with
  | entry =>
    rw [hkind] at hb
    exact absurd (List.mem_singleton.mp hb) hne
  | action =>
    rw [hkind] at hb
    exact absurd (List.mem_singleton.mp hb) hne
  | condition =>
    rw [hkind] at hb hbranches
    have hcount := List.filterMap_eq_nil_iff.mp hbranches b hb
    simpa using hcount
  | loop =>
    rw [hkind] at hb hbranches
    obtain rfl : b = .body := by simpa [NodeKind.ways, hne] using hb
    simpa using hbranches

/-- All edges that a walk can take from a node in one way lead to the same one. -/
theorem Unforked.target_eq (hforks : g.Unforked) (hv : g.validate = []) (hn : n ∈ g.nodes)
    (hb : b ∈ n.kind.ways) : ∀ e ∈ g.structuralEdges, ∀ e' ∈ g.structuralEdges,
      e.source = n.id → e'.source = n.id → e.branch = b → e'.branch = b →
        e.target = e'.target := by
  intro e he e' he' hs hs' hbe hbe'
  by_cases hne : b = .none
  · subst hne
    have hkind : n.kind ≠ .condition := by
      intro hkind
      simp [hkind, NodeKind.ways] at hb
    exact hforks n hn hkind e he e' he' hs hs' hbe hbe'
  · have hcount := branchCount_le_one_of_valid hv hn hb hne
    rw [eq_of_countP_le_one hcount he he' (by simp [hs, hbe]) (by simp [hs', hbe'])]

theorem structuralEdges_of_perm {es : List Edge} (h : es.Perm g.edges) :
    (g.structuralEdges.map ends).Perm ((Graph.mk g.nodes es).structuralEdges.map ends) :=
  (h.symm.filter _).map _

/-- The edges of a flow without errors can be reordered, unless two plain edges compete for a way:
the flow is read back to the same document or fault, whatever the document it was drawn from. -/
theorem rebuild_of_perm {es : List Edge} (hv : g.validate = []) (hforks : g.Unforked)
    (h : es.Perm g.edges) :
    (∀ base, Graph.rebuild ⟨g.nodes, es⟩ base = g.rebuild base) ∧
      ∀ extra, Graph.rebuildWith ⟨g.nodes, es⟩ extra = g.rebuildWith extra := by
  have halike : g.ReadAlike ⟨g.nodes, es⟩ :=
    { nodes := List.forall₂_same.mpr fun _ _ => ⟨rfl, rfl, rfl, fun _ => rfl, fun _ => rfl⟩
      target? := fun n hn b hb =>
        target?_of_perm (structuralEdges_of_perm h) (hforks.target_eq hv hn hb) }
  exact ⟨fun base => (halike.rebuild_eq base).symm, fun extra => (halike.rebuildWith_eq extra).symm⟩

end Graph

theorem unforked_of_draw {d : Document} {stem : String} {g : Graph} (h : d.draw stem = .ok g) :
    g.Unforked := by
  intro n _ _ e he e' he' hs hs' hb hb'
  rw [List.inj_on_of_nodup_map (nodup_ways_of_draw h) he he' (by rw [hs, hs', hb, hb'])]

/-- A pause of one of two lengths, again and again. -/
def Document.polling : Document :=
  ⟨[⟨some "main", none, none, none, [],
    [.loop (.whileLoop (some (.str "busy")) (some (.int 9))) []
      [.branch (some (.str "slow")) [] [.leaf "wait" [("ms", .int 2)]]
        [.leaf "wait" [("ms", .int 1)]]],
     .leaf "log" []]⟩], []⟩

theorem Graph.rebuild_of_perm_polling : ∃ g : Graph, Document.polling.draw defaultStem = .ok g ∧
    g.validate = [] ∧ g.Unforked ∧ g.edges.reverse ≠ g.edges ∧
      (∀ base, Graph.rebuild ⟨g.nodes, g.edges.reverse⟩ base = g.rebuild base) ∧
        ∀ extra, Graph.rebuildWith ⟨g.nodes, g.edges.reverse⟩ extra = g.rebuildWith extra := by
  obtain ⟨g, hg, hv, hreverse⟩ : ∃ g : Graph, Document.polling.draw defaultStem = .ok g ∧
      g.validate = [] ∧ g.edges.reverse ≠ g.edges := ⟨_, rfl, rfl, by decide⟩
  have hforks := unforked_of_draw hg
  exact ⟨g, hg, hv, hforks, hreverse, rebuild_of_perm hv hforks (List.reverse_perm g.edges)⟩

theorem Graph.rebuild_of_saveWith {g : Graph} {d : Document} (h : g.saveWith [] = .ok d) :
    g.validate = [] ∧ g.rebuild (.obj []) = .ok d := by
  have hsave : g.save (.obj []) = .ok d := save_eq_ok.mpr ⟨[], rfl, h⟩
  obtain ⟨⟨⟩, hv, hd⟩ := bind_eq_ok.mp hsave
  exact ⟨requireValid_eq_ok.mp hv, hd⟩

/-- Two plain edges leave the entry of a flow without errors. The first one in the list tells which
pause is read back. -/
theorem Graph.rebuild_of_swap_detoured : ∃ (g : Graph) (es : List Edge), g.validate = [] ∧
    es.Perm g.edges ∧ g.rebuild (.obj []) = .ok (Document.pauses [1]) ∧
      Graph.rebuild ⟨g.nodes, es⟩ (.obj []) = .ok (Document.pauses [2]) ∧
      Document.pauses [2] ≠ Document.pauses [1] := by
  obtain ⟨hv, hfirst⟩ := rebuild_of_saveWith saveWith_detoured_first
  obtain ⟨-, hsecond⟩ := rebuild_of_saveWith saveWith_detoured_second
  refine ⟨_, [.structural "node_1" "node_3" .none, .structural "node_1" "node_2" .none], hv,
    List.Perm.swap _ _ _, hfirst, hsecond, fun h => ?_⟩
  cases h

end ScriptFlow
