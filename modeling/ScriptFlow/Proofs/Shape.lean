import ScriptFlow.Proofs.Drawn
import ScriptFlow.Proofs.Links

/-! The shape of a drawn flow: its nodes and their ids, what its edges join and how many of them
leave a node, and which way they lead. -/

namespace ScriptFlow

namespace Station

theorem action?_eq_none_of_kind {s : Station} (h : s.kind = .entry) : s.action? = none := by
  cases ha : s.action? with
  | none => rfl
  | some a => cases a <;> simp [kind, ha, Action.kind] at h

theorem action?_of_kind_loop {s : Station} (h : s.kind = .loop) :
    ∃ head extra body, s.action? = some (.loop head extra body) := by
  cases ha : s.action? with
  | none => simp [kind, ha] at h
  | some a =>
    cases a with
    | leaf => simp [kind, ha, Action.kind] at h
    | branch => simp [kind, ha, Action.kind] at h
    | loop head extra body => exact ⟨head, extra, body, rfl⟩

/-- Outcomes leave conditions only. -/
theorem kind_of_mem_links {s : Station} {l : Link} (hl : l ∈ s.links)
    (hb : l.branch = .whenTrue ∨ l.branch = .whenFalse) : s.kind = .condition := by
  have honward : ∀ {n}, l ∉ s.onward.links n := by
    intro n h
    have hne := Onward.branch_ne_of_mem_links h
    exact hb.elim hne.1 hne.2.1
  unfold links at hl
  split at hl
  · next ha => simp [kind, ha, Action.kind]
  · simp only [List.mem_append, Action.mem_entryLink] at hl
    rcases hl with hl | ⟨-, rfl⟩
    · exact absurd hl honward
    · simp at hb
  · exact absurd hl honward
  · exact absurd hl honward

/-- Bodies hang from loops that have one. -/
theorem body_of_mem_links {s : Station} {l : Link} (hl : l ∈ s.links) (hb : l.branch = .body) :
    ∃ head extra body, s.action? = some (.loop head extra body) ∧ body ≠ [] := by
  have honward : ∀ {n}, l ∉ s.onward.links n :=
    fun h => (Onward.branch_ne_of_mem_links h).2.2 hb
  unfold links at hl
  split at hl
  · simp only [List.mem_append, Action.mem_entryLink] at hl
    rcases hl with hl | ⟨-, rfl⟩ | ⟨-, rfl⟩
    · split at hl
      · exact absurd hl honward
      · exact absurd hl List.not_mem_nil
    · cases hb
    · cases hb
  · next head extra body ha =>
    simp only [List.mem_append, Action.mem_entryLink] at hl
    rcases hl with hl | ⟨hne, rfl⟩
    · exact absurd hl honward
    · exact ⟨head, extra, body, ha, hne⟩
  · exact absurd hl honward
  · exact absurd hl honward

end Station

/-- The shape of the flow drawn from a document. -/
structure Shape (stem : String) (d : Document) (g : Graph) : Prop where
  /-- The nodes are the entries and the actions in order. -/
  nodes : g.nodes.map (fun n => (n.id, n.kind)) =
    d.stations.map fun s => (nodeId stem s.number, s.kind)
  ids : (g.nodes.map (·.id)).Nodup
  structural : ∀ e ∈ g.edges, e.isStructural
  joined : ∀ e ∈ g.edges, g.hasNode e.source ∧ g.hasNode e.target ∧ e.source ≠ e.target
  /-- Both ends of an edge are stations of one capability. -/
  together : ∀ e ∈ g.edges, ∃ p ∈ d.placed, ∃ s ∈ p.2.stations p.1, ∃ t ∈ p.2.stations p.1,
    e.source = nodeId stem s.number ∧ e.target = nodeId stem t.number
  triples : (g.edges.map fun e => (e.source, e.target, e.branch)).Nodup
  ports : (g.edges.map Edge.port).Nodup
  outcomes : ∀ e ∈ g.edges, e.branch = .whenTrue ∨ e.branch = .whenFalse →
    ∃ n ∈ g.nodes, n.id = e.source ∧ n.kind = .condition
  bodies : ∀ e ∈ g.edges, e.branch = .body → ∃ n ∈ g.nodes, n.id = e.source ∧ n.kind = .loop
  notEntered : ∀ n ∈ g.nodes, n.isEntry → ∀ e ∈ g.edges, e.target ≠ n.id
  /-- An entry has one edge, a plain one, if its capability has actions, and none otherwise. -/
  entered : ∀ n ∈ g.nodes, n.isEntry → ∃ p ∈ d.placed, n.id = nodeId stem p.1 ∧
    g.outgoing n.id = if p.2.actions = [] then []
      else [Edge.structural n.id (nodeId stem (p.1 + 1)) .none]
  ledTo : ∀ n ∈ g.nodes, ¬ n.isEntry → ∃ e ∈ g.edges, e.target = n.id ∧ e.branch ≠ .loopBack
  forward : ∀ e ∈ g.edges, e.branch ≠ .loopBack → ∃ i j, i < j ∧ e.source = nodeId stem i ∧
    e.target = nodeId stem j
  /-- An edge back leads to the nearest loop around the node that it leaves. -/
  back : ∀ e ∈ g.edges, e.branch = .loopBack → ∃ s ∈ d.stations, ∃ t ∈ d.stations,
    e.source = nodeId stem s.number ∧ e.target = nodeId stem t.number ∧ t.LoopAround s ∧
      ∀ u ∈ d.stations, u.LoopAround s → u.number ≤ t.number
  loops : ∀ n ∈ g.nodes, n.kind = .loop → ∃ s ∈ d.stations, n.id = nodeId stem s.number ∧
    ∃ head extra body, s.action? = some (.loop head extra body) ∧
      ((∃ e ∈ g.edges, e.source = n.id ∧ e.branch = .body) ↔ body ≠ []) ∧
      (body ≠ [] → ∃ e ∈ g.edges, e.target = n.id ∧ e.branch = .loopBack)

section

variable {stem : String} {d : Document} {g : Graph}

theorem mem_edges (h : d.draw stem = .ok g) {e : Edge} (he : e ∈ g.edges) :
    ∃ p ∈ d.placed, ∃ s ∈ p.2.stations p.1, ∃ l ∈ s.links, e = l.edge stem ∧
      l.source = s.number := by
  obtain ⟨s, hs, l, hl, rfl⟩ := (mem_edges_of_draw h).mp he
  obtain ⟨p, hp, hsp⟩ := Document.mem_stations.mp hs
  exact ⟨p, hp, s, hsp, l, hl, rfl, Station.source_of_mem_links hl⟩

theorem isStructural_of_draw (h : d.draw stem = .ok g) {e : Edge} (he : e ∈ g.edges) :
    e.isStructural := by
  obtain ⟨p, -, s, -, l, -, rfl, -⟩ := mem_edges h he
  rfl

/-- An edge leaves the node of the station whose link it is. -/
theorem exists_source (h : d.draw stem = .ok g) {e : Edge} (he : e ∈ g.edges) :
    ∃ s : Station, ∃ l ∈ s.links, e = l.edge stem ∧
      ∃ n ∈ g.nodes, n.id = e.source ∧ n.kind = s.kind := by
  obtain ⟨p, hp, s, hs, l, hl, rfl, hsource⟩ := mem_edges h he
  obtain ⟨n, hn, hid, hkind⟩ := exists_node h (Document.mem_stations.mpr ⟨p, hp, hs⟩)
  exact ⟨s, l, hl, rfl, n, hn, hid.trans (congrArg (nodeId stem) hsource.symm), hkind⟩

theorem joined_of_draw (h : d.draw stem = .ok g) {e : Edge} (he : e ∈ g.edges) :
    g.hasNode e.source ∧ g.hasNode e.target ∧ e.source ≠ e.target := by
  obtain ⟨p, hp, s, hs, l, hl, rfl, hsource⟩ := mem_edges h he
  obtain ⟨t, ht, hnumber, -, hne⟩ := Capability.exists_target hs hl
  refine ⟨hasNode_of_station h (Document.mem_stations.mpr ⟨p, hp, hs⟩) hsource,
    hasNode_of_station h (Document.mem_stations.mpr ⟨p, hp, ht⟩) hnumber.symm, ?_⟩
  intro heq
  exact hne (hnumber.trans ((nodeId_inj.mp heq).symm.trans hsource))

/-- The entries of a flow are where its capabilities begin. -/
theorem placed_of_entry (h : d.draw stem = .ok g) {n : Node} (hn : n ∈ g.nodes)
    (hentry : n.isEntry) : ∃ p ∈ d.placed, n.id = nodeId stem p.1 := by
  obtain ⟨s, hs, hid, hkind⟩ := exists_station h hn
  obtain ⟨p, hp, hsp⟩ := Document.mem_stations.mp hs
  have hk : n.kind = .entry := by simpa [Node.isEntry] using hentry
  have hnone := Station.action?_eq_none_of_kind (hkind.symm.trans hk)
  exact ⟨p, hp, hid.trans (congrArg (nodeId stem) ((Capability.action?_eq_none hsp).mp hnone))⟩

theorem nodup_triples (h : d.draw stem = .ok g) :
    (g.edges.map fun e => (e.source, e.target, e.branch)).Nodup := by
  rw [edges_of_draw h, List.map_map]
  refine d.nodup_links.map ?_
  rintro ⟨s, t, b⟩ ⟨s', t', b'⟩ heq
  simp only [Function.comp_apply, Link.edge, Edge.structural, Prod.mk.injEq, nodeId_inj] at heq
  obtain ⟨rfl, rfl, rfl⟩ := heq
  rfl

theorem outgoing_of_entry (h : d.draw stem = .ok g) {p : Nat × Capability} (hp : p ∈ d.placed) :
    g.outgoing (nodeId stem p.1) = if p.2.actions = [] then []
      else [Edge.structural (nodeId stem p.1) (nodeId stem (p.1 + 1)) .none] := by
  have hperm := outgoing_of_station h (Document.station_of_placed hp)
  cases ha : p.2.actions with
  | nil =>
    rw [ha] at hperm
    simpa [Station.links, Onward.links] using hperm
  | cons a as =>
    rw [ha] at hperm
    simpa [Station.links, Onward.links, Link.edge] using hperm

/-- No edge leads to an entry. -/
theorem target_ne_of_entry (h : d.draw stem = .ok g) {n : Node} (hn : n ∈ g.nodes)
    (hentry : n.isEntry) {e : Edge} (he : e ∈ g.edges) : e.target ≠ n.id := by
  intro heq
  obtain ⟨q, hq, hid⟩ := placed_of_entry h hn hentry
  obtain ⟨p, hp, s, hs, l, hl, rfl, -⟩ := mem_edges h he
  obtain ⟨t, ht, hnumber, hlt, -⟩ := Capability.exists_target hs hl
  -- the target would be an entry, and those begin their capabilities
  have hqn : t.number = q.1 := hnumber.trans (nodeId_inj.mp (heq.trans hid))
  have hentry : t = ⟨q.1, none, none, Onward.stops.before (q.1 + 1) q.2.actions⟩ :=
    Document.station_eq (Document.mem_stations.mpr ⟨p, hp, ht⟩) (Document.station_of_placed hq)
      hqn
  have hfirst := (Capability.action?_eq_none ht).mp (by rw [hentry])
  omega

theorem led_to_of_draw (h : d.draw stem = .ok g) {n : Node} (hn : n ∈ g.nodes)
    (hentry : ¬ n.isEntry) : ∃ e ∈ g.edges, e.target = n.id ∧ e.branch ≠ .loopBack := by
  obtain ⟨s, hs, hid, hkind⟩ := exists_station h hn
  obtain ⟨p, hp, hsp⟩ := Document.mem_stations.mp hs
  have hne : s.action? ≠ none := by
    intro hnone
    exact hentry (by simp [Node.isEntry, hkind, Station.kind, hnone])
  obtain ⟨t, ht, l, hl, htarget, hb⟩ := Capability.led_to hsp hne
  refine ⟨l.edge stem, (mem_edges_of_draw h).mpr ⟨t, ?_, l, hl, rfl⟩, ?_, hb⟩
  · exact Document.mem_stations.mpr ⟨p, hp, ht⟩
  · exact (congrArg (nodeId stem) htarget).trans hid.symm

theorem loop_of_draw (h : d.draw stem = .ok g) {s : Station} (hs : s ∈ d.stations)
    {head : LoopHead} {extra : Fields} {body : List Action}
    (ha : s.action? = some (.loop head extra body)) :
    ((∃ e ∈ g.edges, e.source = nodeId stem s.number ∧ e.branch = .body) ↔ body ≠ []) ∧
      (body ≠ [] → ∃ e ∈ g.edges, e.target = nodeId stem s.number ∧ e.branch = .loopBack) := by
  refine ⟨⟨?_, ?_⟩, ?_⟩
  · intro hx
    obtain ⟨e, he, hsource, hb⟩ := hx
    obtain ⟨s', hs', l, hl, rfl⟩ := (mem_edges_of_draw h).mp he
    have hnumber : s'.number = s.number :=
      (Station.source_of_mem_links hl).symm.trans (nodeId_inj.mp hsource)
    obtain ⟨head', extra', body', ha', hne⟩ := Station.body_of_mem_links hl hb
    rw [Document.station_eq hs' hs hnumber, ha] at ha'
    cases ha'
    exact hne
  · intro hne
    have hl : ⟨s.number, s.number + 1, .body⟩ ∈ s.links := by
      simp [Station.links, ha, Action.mem_entryLink, hne]
    exact ⟨_, (mem_edges_of_draw h).mpr ⟨s, hs, _, hl, rfl⟩, rfl, rfl⟩
  · intro hne
    obtain ⟨p, hp, hsp⟩ := Document.mem_stations.mp hs
    obtain ⟨t, ht, hl⟩ := Capability.returned_to hsp ha hne
    exact ⟨_, (mem_edges_of_draw h).mpr ⟨t, Document.mem_stations.mpr ⟨p, hp, ht⟩, _, hl, rfl⟩,
      rfl, rfl⟩

/-- Every drawn flow has this shape, whatever the stem of its ids. -/
theorem shape_of_draw (h : d.draw stem = .ok g) : Shape stem d g where
  nodes := id_kinds_of_draw h
  ids := nodup_ids_of_draw h
  structural := by
    intro e he
    exact isStructural_of_draw h he
  joined := by
    intro e he
    exact joined_of_draw h he
  together := by
    intro e he
    obtain ⟨p, hp, s, hs, l, hl, rfl, hsource⟩ := mem_edges h he
    obtain ⟨t, ht, hnumber, -⟩ := Capability.exists_target hs hl
    exact ⟨p, hp, s, hs, t, ht, congrArg (nodeId stem) hsource,
      congrArg (nodeId stem) hnumber.symm⟩
  triples := nodup_triples h
  ports := nodup_edge_ports h
  outcomes := by
    intro e he hb
    obtain ⟨s, l, hl, rfl, n, hn, hid, hkind⟩ := exists_source h he
    exact ⟨n, hn, hid, hkind.trans (Station.kind_of_mem_links hl hb)⟩
  bodies := by
    intro e he hb
    obtain ⟨s, l, hl, rfl, n, hn, hid, hkind⟩ := exists_source h he
    obtain ⟨head, extra, body, ha, -⟩ := Station.body_of_mem_links hl hb
    exact ⟨n, hn, hid, hkind.trans (by simp [Station.kind, ha, Action.kind])⟩
  notEntered := by
    intro n hn hentry e he
    exact target_ne_of_entry h hn hentry he
  entered := by
    intro n hn hentry
    obtain ⟨p, hp, hid⟩ := placed_of_entry h hn hentry
    refine ⟨p, hp, hid, ?_⟩
    rw [hid]
    exact outgoing_of_entry h hp
  ledTo := by
    intro n hn hentry
    exact led_to_of_draw h hn hentry
  forward := by
    intro e he hb
    obtain ⟨p, hp, s, hs, l, hl, rfl, hsource⟩ := mem_edges h he
    rcases Capability.link_inside hs hl with ⟨-, h1, -⟩ | ⟨h1, -⟩
    · exact ⟨l.source, l.target, by omega, rfl, rfl⟩
    · exact absurd h1 hb
  back := by
    intro e he hb
    obtain ⟨p, hp, s, hs, l, hl, rfl, hsource⟩ := mem_edges h he
    rcases Capability.link_inside hs hl with ⟨h1, -⟩ | ⟨-, hloop, -⟩
    · exact absurd hb h1
    · have hsd := Document.mem_stations.mpr ⟨p, hp, hs⟩
      obtain ⟨t, ht, hnumber, hnear⟩ := Document.nearest_loop hsd hloop
      exact ⟨s, hsd, t, ht, congrArg (nodeId stem) hsource,
        congrArg (nodeId stem) hnumber.symm, hnear⟩
  loops := by
    intro n hn hkind
    obtain ⟨s, hs, hid, hsk⟩ := exists_station h hn
    obtain ⟨head, extra, body, ha⟩ := Station.action?_of_kind_loop (hsk.symm.trans hkind)
    refine ⟨s, hs, hid, head, extra, body, ha, ?_⟩
    rw [hid]
    exact loop_of_draw h hs ha

end

theorem shape_of_draw_sample :
    ∃ g, Document.sample.draw "node" = .ok g ∧ Shape "node" Document.sample g := by
  obtain ⟨g, hg⟩ : ∃ g, Document.sample.draw "node" = .ok g := ⟨_, rfl⟩
  exact ⟨g, hg, shape_of_draw hg⟩

end ScriptFlow
