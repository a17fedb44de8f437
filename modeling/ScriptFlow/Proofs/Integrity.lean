import ScriptFlow.Proofs.Requests
import ScriptFlow.Proofs.Shape

/-! Flows stay intact in a session: ids name one node each, and edges join two of the nodes, none
twice. The structural edges are kept so by every edit, and the data edges are computed afresh. -/

namespace ScriptFlow

namespace Graph

/-- A flow whose edges join nodes that are there and repeat nothing. -/
structure Intact (g : Graph) : Prop where
  ids : (g.nodes.map (·.id)).Nodup
  ends : ∀ e ∈ g.edges, g.hasNode e.source ∧ g.hasNode e.target
  noLoop : ∀ e ∈ g.edges, e.source ≠ e.target
  triples : (g.structuralEdges.map fun e => (e.source, e.target, e.branch)).Nodup
  /-- Two nodes are joined by one data edge at most in each direction. -/
  pairs : (g.dataEdges.map fun e => (e.source, e.target)).Nodup

/-- What edits keep of a flow: its structural edges join nodes that are there, and each has the id
of its ends and its tag. -/
structure Framed (g : Graph) : Prop where
  ids : (g.nodes.map (·.id)).Nodup
  ends : ∀ e ∈ g.structuralEdges, g.hasNode e.source ∧ g.hasNode e.target
  noLoop : ∀ e ∈ g.structuralEdges, e.source ≠ e.target
  named : ∀ e ∈ g.structuralEdges, e.id = Edge.structuralId e.source e.target e.branch
  triples : (g.structuralEdges.map fun e => (e.source, e.target, e.branch)).Nodup

theorem hasNode_iff {g : Graph} {id : String} : g.hasNode id ↔ id ∈ g.nodes.map (·.id) := by
  simp [hasNode]

theorem mem_structuralEdges {g : Graph} {e : Edge} :
    e ∈ g.structuralEdges ↔ e ∈ g.edges ∧ e.isStructural :=
  List.mem_filter

theorem mem_dataEdges {g : Graph} {e : Edge} : e ∈ g.dataEdges ↔ e ∈ g.edges ∧ e.isData :=
  List.mem_filter

end Graph

/-! Data edges that are computed afresh. -/

theorem mem_dataEdgesFor {linked : List (String × String)} {us : List Use} {e : Edge}
    (h : e ∈ dataEdgesFor linked us) : ∃ u ∈ us, e = Edge.data u.source u.target u.variableName ∧
      (u.source, u.target) ∉ linked := by
  induction us generalizing linked with
  | nil => exact absurd h List.not_mem_nil
  | cons u us ih =>
    unfold dataEdgesFor at h
    split at h
    · obtain ⟨w, hw, he⟩ := ih h
      exact ⟨w, List.mem_cons_of_mem _ hw, he⟩
    · next hu =>
      rcases List.mem_cons.mp h with rfl | h
      · exact ⟨u, List.mem_cons_self, rfl, by simpa using hu⟩
      · obtain ⟨w, hw, he, hl⟩ := ih h
        exact ⟨w, List.mem_cons_of_mem _ hw, he, fun hm => hl (List.mem_cons_of_mem _ hm)⟩

theorem nodup_dataEdgesFor (linked : List (String × String)) (us : List Use) :
    ((dataEdgesFor linked us).map fun e => (e.source, e.target)).Nodup := by
  induction us generalizing linked with
  | nil => exact List.nodup_nil
  | cons u us ih =>
    unfold dataEdgesFor
    split
    · exact ih linked
    · rw [List.map_cons, List.nodup_cons]
      refine ⟨?_, ih _⟩
      intro hm
      obtain ⟨e, he, hp⟩ := List.mem_map.mp hm
      obtain ⟨w, -, rfl, hl⟩ := mem_dataEdgesFor he
      exact hl (hp ▸ List.mem_cons_self)

theorem mem_ids_of_producer? {nodes : List Node} {v id : String}
    (h : producer? nodes v = some id) : id ∈ nodes.map (·.id) := by
  obtain ⟨n, hn, rfl⟩ := Option.map_eq_some_iff.mp h
  exact List.mem_map_of_mem (List.mem_reverse.mp (List.mem_of_find?_eq_some hn))

/-- A use joins two different nodes. -/
theorem mem_usesOf {nodes : List Node} {n : Node} {u : Use} (h : u ∈ usesOf nodes n) :
    u.source ∈ nodes.map (·.id) ∧ u.target = n.id ∧ u.source ≠ u.target := by
  obtain ⟨v, -, hv⟩ := List.mem_filterMap.mp h
  split at hv
  · next p hp =>
    split at hv
    · cases hv
    · next hne =>
      cases hv
      exact ⟨mem_ids_of_producer? hp, rfl, fun he => hne (Or.inr he)⟩
  · cases hv

theorem Node.id_of_refresh {n m : Node} (h : n.refresh = .ok m) : m.id = n.id := by
  unfold refresh at h
  split at h
  · cases h
    rfl
  · dsimp only at h
    split at h
    · cases h
      rfl
    · obtain ⟨note, -, h⟩ := bind_eq_ok.mp h
      cases h
      rfl

theorem Node.missingEnd_not_mem_errors (n : Node) {structural : List Edge} {edge node : String} :
    .missingEnd edge node ∉ n.errors structural := by
  have hbranch : FlowError.missingEnd edge node ∉ n.branchErrors structural := by
    unfold branchErrors
    split <;> grind
  have hfield : FlowError.missingEnd edge node ∉ n.fieldErrors := by
    simp [fieldErrors]
  unfold errors
  split
  · exact List.not_mem_nil
  · simp only [List.mem_append, hbranch, hfield, or_false]
    split <;> simp

namespace Graph

variable {g g' : Graph}

theorem mem_inferDataEdges {e : Edge} (h : e ∈ inferDataEdges g.nodes g.edges) :
    e.isData ∧ g.hasNode e.source ∧ g.hasNode e.target ∧ e.source ≠ e.target := by
  obtain ⟨u, hu, rfl, -⟩ := mem_dataEdgesFor h
  obtain ⟨n, hn, hu⟩ := List.mem_flatMap.mp hu
  obtain ⟨hsource, htarget, hne⟩ := mem_usesOf hu
  refine ⟨rfl, hasNode_iff.mpr hsource, hasNode_iff.mpr ?_, hne⟩
  rw [Edge.data, htarget]
  exact List.mem_map_of_mem hn

theorem structuralEdges_annotate (g : Graph) : g.annotate.structuralEdges = g.structuralEdges := by
  have hnone : (inferDataEdges g.nodes g.edges).filter (·.isStructural) = [] := by
    refine List.filter_eq_nil_iff.mpr ?_
    intro e he
    simp [Edge.isStructural, (mem_inferDataEdges he).1]
  rw [structuralEdges, annotate, List.filter_append, hnone, List.append_nil]
  rfl

theorem dataEdges_annotate (g : Graph) :
    g.annotate.dataEdges = g.dataEdges ++ inferDataEdges g.nodes g.edges := by
  have hall : (inferDataEdges g.nodes g.edges).filter (·.isData) =
      inferDataEdges g.nodes g.edges :=
    List.filter_eq_self.mpr fun e he => (mem_inferDataEdges he).1
  rw [dataEdges, annotate, List.filter_append, hall]
  rfl

theorem structuralEdges_stripDataEdges (g : Graph) :
    g.stripDataEdges.structuralEdges = g.structuralEdges := by
  simp [structuralEdges, stripDataEdges]

theorem dataEdges_stripDataEdges (g : Graph) : g.stripDataEdges.dataEdges = [] := by
  refine List.filter_eq_nil_iff.mpr ?_
  intro e he
  have hs := (mem_structuralEdges.mp he).2
  simpa [Edge.isStructural] using hs

/-- Only the ids of the nodes and the structural edges count. -/
theorem Framed.of_eq (h : g.Framed) (hids : g'.nodes.map (·.id) = g.nodes.map (·.id))
    (hedges : g'.structuralEdges = g.structuralEdges) : g'.Framed := by
  refine ⟨hids ▸ h.ids, ?_, hedges ▸ h.noLoop, hedges ▸ h.named, hedges ▸ h.triples⟩
  intro e he
  rw [hedges] at he
  simpa only [hasNode_iff, hids] using h.ends e he

/-- A framed flow is intact once its data edges are computed. -/
theorem Framed.intact_annotate (h : g.Framed) (hd : g.dataEdges = []) : g.annotate.Intact := by
  have hmem : ∀ {e}, e ∈ g.annotate.edges →
      e ∈ g.structuralEdges ∨ e ∈ inferDataEdges g.nodes g.edges := by
    intro e he
    rcases List.mem_append.mp he with he | he
    · cases hs : e.isData with
      | true => exact absurd (mem_dataEdges.mpr ⟨he, hs⟩) (by simp [hd])
      | false => exact Or.inl (mem_structuralEdges.mpr ⟨he, by simp [Edge.isStructural, hs]⟩)
    · exact Or.inr he
  refine ⟨h.ids, ?_, ?_, ?_, ?_⟩
  · intro e he
    rcases hmem he with he | he
    · exact h.ends e he
    · exact ⟨(mem_inferDataEdges he).2.1, (mem_inferDataEdges he).2.2.1⟩
  · intro e he
    rcases hmem he with he | he
    · exact h.noLoop e he
    · exact (mem_inferDataEdges he).2.2.2
  · rw [structuralEdges_annotate]
    exact h.triples
  · rw [dataEdges_annotate, hd, List.nil_append]
    exact nodup_dataEdgesFor _ _

theorem Framed.annotate (h : g.Framed) : g.annotate.Framed :=
  h.of_eq rfl g.structuralEdges_annotate

theorem Framed.stripDataEdges (h : g.Framed) : g.stripDataEdges.Framed :=
  h.of_eq rfl g.structuralEdges_stripDataEdges

/-! Edits. -/

theorem hasNode_of_requireNode {id : String} (h : g.requireNode id = .ok ()) : g.hasNode id := by
  unfold requireNode at h
  split at h
  · assumption
  · cases h

theorem Framed.addNode {n : Node} (h : g.Framed) (ha : g.addNode n = .ok g') : g'.Framed := by
  unfold Graph.addNode at ha
  split at ha
  · cases ha
  · next hnew =>
    cases ha
    have hid : n.id ∉ g.nodes.map (·.id) := fun hm => hnew (hasNode_iff.mpr hm)
    refine ⟨?_, ?_, h.noLoop, h.named, h.triples⟩
    · rw [List.map_append, List.map_singleton]
      exact List.nodup_append.mpr ⟨h.ids, by simp, by grind⟩
    · intro e he
      have hends := h.ends e he
      simp only [hasNode_iff, List.map_append, List.mem_append] at hends ⊢
      exact ⟨Or.inl hends.1, Or.inl hends.2⟩

/-- Nodes and structural edges can be taken away as long as no edge that stays loses an end. -/
theorem Framed.filter (h : g.Framed) {p : Node → Bool} {q : Edge → Bool}
    (hpq : ∀ e ∈ g.structuralEdges, q e → ∀ n ∈ g.nodes, n.id = e.source ∨ n.id = e.target → p n) :
    Framed ⟨g.nodes.filter p, g.edges.filter q⟩ := by
  have hsub : structuralEdges ⟨g.nodes.filter p, g.edges.filter q⟩ =
      g.structuralEdges.filter q := by
    simp only [structuralEdges, List.filter_filter, Bool.and_comm]
  have hmem : ∀ {e}, e ∈ structuralEdges ⟨g.nodes.filter p, g.edges.filter q⟩ →
      e ∈ g.structuralEdges ∧ q e := by
    intro e he
    rw [hsub] at he
    exact List.mem_filter.mp he
  have hkept : ∀ {e id}, e ∈ g.structuralEdges → q e → id = e.source ∨ id = e.target →
      g.hasNode id → hasNode ⟨g.nodes.filter p, g.edges.filter q⟩ id := by
    intro e id he hq hid hn
    obtain ⟨n, hm, rfl⟩ := List.mem_map.mp (hasNode_iff.mp hn)
    exact hasNode_iff.mpr
      (List.mem_map_of_mem (List.mem_filter.mpr ⟨hm, hpq e he hq n hm hid⟩))
  refine ⟨h.ids.sublist (List.filter_sublist.map _), ?_, ?_, ?_, ?_⟩
  · intro e he
    obtain ⟨he, hq⟩ := hmem he
    exact ⟨hkept he hq (Or.inl rfl) (h.ends e he).1, hkept he hq (Or.inr rfl) (h.ends e he).2⟩
  · intro e he
    exact h.noLoop e (hmem he).1
  · intro e he
    exact h.named e (hmem he).1
  · rw [hsub]
    exact h.triples.sublist (List.filter_sublist.map _)

theorem Framed.deleteNode {id : String} (h : g.Framed) (hd : g.deleteNode id = .ok g') :
    g'.Framed := by
  obtain ⟨-, -, hd⟩ := bind_eq_ok.mp hd
  cases hd
  refine h.filter ?_
  intro e _ hq n _ hn
  simp only [Bool.and_eq_true, bne_iff_ne] at hq ⊢
  rcases hn with hn | hn
  · exact hn ▸ hq.1
  · exact hn ▸ hq.2

theorem Framed.disconnect (h : g.Framed) (edgeId : String) : (g.disconnect edgeId).Framed := by
  have hf := h.filter (p := fun _ => true) (q := (·.id != edgeId)) fun _ _ _ _ _ _ => rfl
  rwa [List.filter_true] at hf

theorem Framed.connect {source target : String} {b : Branch} (h : g.Framed)
    (hc : g.connect? source target b = .ok (some g')) : g'.Framed := by
  obtain ⟨_, hsource, hc⟩ := bind_eq_ok.mp hc
  obtain ⟨_, htarget, hc⟩ := bind_eq_ok.mp hc
  dsimp only at hc
  split at hc
  · cases hc
  · next hnew =>
    cases hc
    simp only [Bool.or_eq_true, decide_eq_true_eq, not_or] at hnew
    obtain ⟨hne, hfree⟩ := hnew
    have hadd : Graph.structuralEdges ⟨g.nodes, g.edges ++ [.structural source target b]⟩ =
        g.structuralEdges ++ [.structural source target b] := by
      rw [structuralEdges, List.filter_append]
      rfl
    have hmem : ∀ {e}, e ∈ Graph.structuralEdges
        ⟨g.nodes, g.edges ++ [.structural source target b]⟩ →
        e ∈ g.structuralEdges ∨ e = .structural source target b := by
      intro e he
      rw [hadd] at he
      simpa using he
    refine ⟨h.ids, ?_, ?_, ?_, ?_⟩
    · intro e he
      rcases hmem he with he | rfl
      · exact h.ends e he
      · exact ⟨hasNode_of_requireNode hsource, hasNode_of_requireNode htarget⟩
    · intro e he
      rcases hmem he with he | rfl
      · exact h.noLoop e he
      · exact hne
    · intro e he
      rcases hmem he with he | rfl
      · exact h.named e he
      · rfl
    · -- an edge with the same ends and tag would have the id that is free
      rw [hadd, List.map_append, List.nodup_append]
      refine ⟨h.triples, by simp, ?_⟩
      intro t ht t' ht' heq
      obtain ⟨e, he, rfl⟩ := List.mem_map.mp ht
      obtain rfl := List.mem_singleton.mp ht'
      obtain ⟨h1, h2, h3⟩ : e.source = source ∧ e.target = target ∧ e.branch = b := by
        simpa [Edge.structural] using heq
      refine hfree (List.any_eq_true.mpr ⟨e, (mem_structuralEdges.mp he).1, ?_⟩)
      rw [h.named e he, h1, h2, h3]
      exact beq_self_eq_true _

theorem Framed.updateConfig {id : String} {changes : Fields} (h : g.Framed)
    (hu : g.updateConfig id changes = .ok g') : g'.Framed := by
  obtain ⟨-, -, hu⟩ := bind_eq_ok.mp hu
  obtain ⟨nodes, hnodes, hu⟩ := bind_eq_ok.mp hu
  cases hu
  refine h.of_eq (map_eq_of_forall₂ (mapM_eq_ok.mp hnodes) ?_).symm rfl
  intro n m hm
  split at hm
  · exact (Node.id_of_refresh hm).symm
  · cases hm
    rfl

theorem Framed.moveNode {id : String} {p : Point} (h : g.Framed)
    (hm : g.moveNode id p = .ok g') : g'.Framed := by
  obtain ⟨-, -, hm⟩ := bind_eq_ok.mp hm
  cases hm
  refine h.of_eq ?_ rfl
  rw [List.map_map]
  refine List.map_congr_left ?_
  intro n _
  simp only [Function.comp_apply]
  split <;> rfl

theorem Framed.arrange (h : g.Framed) (settings : Settings) : (g.arrange settings).Framed :=
  h.of_eq (g.ids_layout _ _) rfl

/-- Whatever a command leads to is framed. -/
theorem Framed.leads {c : Command} {drawn : Nat} (h : g.Framed) (hc : c.Leads drawn g g') :
    g'.Framed := by
  cases hc with
  | addNode _ ha => exact h.addNode ha
  | addBlock _ _ ha => exact h.addNode ha
  | deleteNode hd => exact h.deleteNode hd
  | connect _ hc => exact h.connect hc
  | disconnect => exact h.disconnect _
  | update hu => exact h.updateConfig hu
  | move _ hm => exact h.moveNode hm
  | addCapability ha => exact h.addNode ha

/-! Drawn and loaded flows. -/

theorem Framed.of_draw {d : Document} {stem : String} (h : d.draw stem = .ok g) : g.Framed := by
  have hmem : ∀ {e}, e ∈ g.structuralEdges → e ∈ g.edges := fun he => (mem_structuralEdges.mp he).1
  refine ⟨nodup_ids_of_draw h, ?_, ?_, ?_, ?_⟩
  · intro e he
    exact (joined_of_draw h (hmem he)).imp_right And.left
  · intro e he
    exact (joined_of_draw h (hmem he)).2.2
  · intro e he
    obtain ⟨-, -, -, -, -, -, rfl, -⟩ := mem_edges h (hmem he)
    rfl
  · exact (nodup_triples h).sublist (List.filter_sublist.map _)

theorem dataEdges_of_draw {d : Document} {stem : String} (h : d.draw stem = .ok g) :
    g.dataEdges = [] := by
  refine List.filter_eq_nil_iff.mpr ?_
  intro e he
  simpa [Edge.isStructural] using isStructural_of_draw h he

theorem Framed.intact_of_load {d : Document} {settings : Settings}
    (h : d.load settings = .ok g) : g.Framed ∧ g.Intact := by
  obtain ⟨drawn, hd, h⟩ := bind_eq_ok.mp h
  cases h
  have harranged := (Framed.of_draw hd).arrange settings
  have hdata := dataEdges_of_draw hd
  exact ⟨harranged.annotate, harranged.intact_annotate hdata⟩

/-- What a request records is framed, and intact whatever the graph before it was. -/
theorem Framed.intact_of_recorded {settings : Settings} {drawn : Nat} {r : Request}
    (h : g.Framed) (hr : r.recorded? settings drawn g = some g') : g'.Framed ∧ g'.Intact := by
  obtain ⟨edited, rfl, hedit⟩ := Request.recorded?_eq_some hr
  have hedited : edited.Framed := by
    rcases hedit with ⟨c, -, hc⟩ | ⟨-, rfl⟩
    · exact h.leads hc
    · exact h.arrange settings
  exact ⟨hedited.stripDataEdges.annotate,
    hedited.stripDataEdges.intact_annotate edited.dataEdges_stripDataEdges⟩

/-- The check reports an id as unknown if a structural edge ends at it and no node has it. -/
theorem missingEnd_mem_validate {edge node : String} : .missingEnd edge node ∈ g.validate ↔
    ∃ e ∈ g.structuralEdges, e.id = edge ∧ (node = e.source ∨ node = e.target) ∧
      ¬ g.hasNode node := by
  have hentry : FlowError.missingEnd edge node ∉
      (if g.nodes.any (·.isEntry) then [] else [.noEntry]) := by
    split <;> simp
  have hnodes : FlowError.missingEnd edge node ∉ g.nodes.flatMap (·.errors g.structuralEdges) := by
    intro hm
    obtain ⟨n, -, hn⟩ := List.mem_flatMap.mp hm
    exact n.missingEnd_not_mem_errors hn
  have hends : ∀ e, FlowError.missingEnd edge node ∈ g.endErrors e ↔
      e.id = edge ∧ (node = e.source ∨ node = e.target) ∧ ¬ g.hasNode node := by
    intro e
    simp only [endErrors, List.mem_filterMap, List.mem_cons, List.not_mem_nil, or_false]
    grind
  simp only [validate, List.mem_append, hentry, hnodes, false_or, or_false, List.mem_flatMap,
    hends]

theorem Intact.missingEnd_not_mem (h : g.Intact) (edge node : String) :
    .missingEnd edge node ∉ g.validate := by
  rw [missingEnd_mem_validate]
  rintro ⟨e, he, -, rfl | rfl, hnone⟩
  · exact hnone (h.ends e (mem_structuralEdges.mp he).1).1
  · exact hnone (h.ends e (mem_structuralEdges.mp he).1).2

end Graph

namespace Session

/-- Every snapshot of a session is intact, whatever was requested, and the check of it never reports
an unknown node. -/
theorem intact_of_start {d : Document} {settings : Settings} {s : Session}
    (h : start d settings = .ok s) (rs : List (Nat × Request)) :
    ∀ g ∈ (s.run rs).history.snapshots,
      g.Intact ∧ ∀ edge node : String, .missingEnd edge node ∉ g.validate := by
  obtain ⟨g, hg, h⟩ := bind_eq_ok.mp h
  cases h
  have hsnapshots := snapshots_run (P := fun g => g.Framed ∧ g.Intact)
    (s := ⟨settings, d, .start g, g.digest⟩)
    (by simpa [History.start] using Graph.Framed.intact_of_load hg)
    (fun hg hr => hg.1.intact_of_recorded hr) rs
  intro g' hg'
  have hintact := (hsnapshots g' hg').2
  exact ⟨hintact, hintact.missingEnd_not_mem⟩

theorem intact_of_start_sample : ∃ s, start Document.sample {} = .ok s ∧
    ∀ g ∈ (s.run [(0, .edit (.connect "node_2" "node_5" (.str "none"))), (0, .save),
        (0, .edit (.addNode (Node.createEntry "other" .zero .null .null).toJson)),
        (0, .edit (.deleteNode "node_3")), (0, .edit (.deleteNode "node_3")),
        (0, .undo)]).history.snapshots,
      g.Intact ∧ ∀ edge node : String, .missingEnd edge node ∉ g.validate := by
  obtain ⟨s, hs⟩ : ∃ s, start Document.sample {} = .ok s := ⟨_, rfl⟩
  exact ⟨s, hs, intact_of_start hs _⟩

end Session

end ScriptFlow
