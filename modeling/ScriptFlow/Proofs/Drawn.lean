import ScriptFlow.Graph.Walk
import ScriptFlow.Proofs.Ids
import ScriptFlow.Proofs.Stations
import Mathlib.Data.List.Forall2

/-! What a drawn flow holds: a node for each item and an edge for each link of the outline. The
edges that leave a node are those of its station, and a node is found under its id. -/

namespace ScriptFlow

section

variable {α β ε : Type}

theorem bind_eq_ok {x : Except ε α} {f : α → Except ε β} {b : β} :
    x >>= f = .ok b ↔ ∃ a, x = .ok a ∧ f a = .ok b := by
  cases x <;> simp [bind, Except.bind]

theorem pure_eq_ok {a b : α} : (pure a : Except ε α) = .ok b ↔ a = b := by
  simp [pure, Except.pure]

/-- A list of results is the list of the results. -/
theorem mapM_eq_ok {f : α → Except ε β} {xs : List α} {ys : List β} :
    xs.mapM f = .ok ys ↔ List.Forall₂ (fun x y => f x = .ok y) xs ys := by
  induction xs generalizing ys with
  | nil => rw [List.mapM_nil, pure_eq_ok, List.forall₂_nil_left_iff, eq_comm]
  | cons x xs ih =>
    simp only [List.mapM_cons, bind_eq_ok, pure_eq_ok, ih, List.forall₂_cons_left_iff]
    constructor
    · intro h
      obtain ⟨y, hy, ys, hys, rfl⟩ := h
      exact ⟨y, ys, hy, hys, rfl⟩
    · intro h
      obtain ⟨y, ys, hy, hys, rfl⟩ := h
      exact ⟨y, hy, ys, hys, rfl⟩

theorem map_eq_of_forall₂ {γ : Type} {R : α → β → Prop} {f : α → γ} {g : β → γ} {xs : List α}
    {ys : List β} (h : List.Forall₂ R xs ys) (hfg : ∀ x y, R x y → f x = g y) :
    xs.map f = ys.map g := by
  induction h with
  | nil => rfl
  | cons hxy _ ih => rw [List.map_cons, List.map_cons, hfg _ _ hxy, ih]

theorem find?_eq_some_of_unique {p : α → Bool} {xs : List α} {x : α} (hx : x ∈ xs)
    (hp : p x = true) (h : ∀ y ∈ xs, p y = true → y = x) : xs.find? p = some x := by
  cases hf : xs.find? p with
  | none => exact absurd hp (List.find?_eq_none.mp hf x hx)
  | some y => rw [h y (List.mem_of_find?_eq_some hf) (List.find?_some hf)]

end

namespace Graph

section

variable {g : Graph} {n m : Node}

theorem node_eq (h : (g.nodes.map (·.id)).Nodup) (hn : n ∈ g.nodes) (hm : m ∈ g.nodes)
    (hid : n.id = m.id) : n = m :=
  List.inj_on_of_nodup_map h hn hm hid

theorem findLast?_eq_some (h : (g.nodes.map (·.id)).Nodup) (hn : n ∈ g.nodes) :
    g.findLast? n.id = some n := by
  refine find?_eq_some_of_unique (List.mem_reverse.mpr hn) (by simp) ?_
  intro m hm hid
  exact node_eq h (List.mem_reverse.mp hm) hn (by simpa using hid)

end

end Graph

/-- The node that an edge leaves, and the way it takes. A plain edge and one back to a loop take the
same way. -/
def Edge.port (e : Edge) : String × Branch :=
  (e.source, if e.branch = .loopBack then .none else e.branch)

/-- The kind of node that stands for an action, or for the entry of a capability. -/
def Station.kind (s : Station) : NodeKind := s.action?.elim .entry Action.kind

theorem Item.id_kind_of_node {stem : String} {i : Item} {n : Node} (h : i.node stem = .ok n) :
    (n.id, n.kind) = (nodeId stem i.numbered.1, i.numbered.2.elim .entry Action.kind) := by
  cases i with
  | capability k c =>
    cases h
    rfl
  | action k a spot =>
    obtain ⟨note, -, h⟩ := bind_eq_ok.mp h
    cases h
    rfl

theorem foldl_addEdge {es : List Edge} (acc : List Edge) (h : ((acc ++ es).map (·.id)).Nodup) :
    es.foldl addEdge acc = acc ++ es := by
  induction es generalizing acc with
  | nil => simp
  | cons e es ih =>
    have hnew : acc.any (·.id == e.id) = false := by
      rw [List.map_append, List.nodup_append] at h
      rw [List.any_eq_false]
      intro f hf
      simpa using h.2.2 f.id (List.mem_map_of_mem hf) e.id (by simp)
    rw [List.foldl_cons, addEdge, hnew, if_neg Bool.false_ne_true, ih _ (by simpa using h)]
    simp

section

variable {stem : String} {d : Document} {g : Graph}

theorem draw_eq_ok : d.draw stem = .ok g ↔
    List.Forall₂ (fun i n => Item.node stem i = .ok n) d.outline.items g.nodes ∧
      g.edges = d.outline.links.map (Link.edge stem) := by
  -- no id is taken when an edge is added, since the links differ and their ids tell them apart
  have hids : ((d.outline.links.map (Link.edge stem)).map (·.id)).Nodup := by
    rw [List.map_map]
    exact d.nodup_links.map (Link.edge_id_injective stem)
  have hedges := foldl_addEdge [] hids
  unfold Document.draw Outline.draw
  rw [bind_eq_ok, hedges, List.nil_append]
  constructor
  · intro h
    obtain ⟨nodes, hn, hg⟩ := h
    cases hg
    exact ⟨mapM_eq_ok.mp hn, rfl⟩
  · intro h
    obtain ⟨hn, he⟩ := h
    exact ⟨g.nodes, mapM_eq_ok.mpr hn, by rw [← he]⟩

/-- A capability alone is drawn as the document that has no other. -/
theorem Capability.draw_eq (c : Capability) (stem : String) :
    c.draw stem = Document.draw stem ⟨[c], []⟩ := by
  simp [Capability.draw, Document.draw, Capability.outline, Document.outline, Document.collect]

theorem edges_of_draw (h : d.draw stem = .ok g) :
    g.edges = d.outline.links.map (Link.edge stem) :=
  (draw_eq_ok.mp h).2

theorem nodes_of_draw (h : d.draw stem = .ok g) :
    List.Forall₂ (fun i n => Item.node stem i = .ok n) d.outline.items g.nodes :=
  (draw_eq_ok.mp h).1

theorem id_kinds_of_draw (h : d.draw stem = .ok g) :
    g.nodes.map (fun n => (n.id, n.kind)) =
      d.stations.map fun s => (nodeId stem s.number, s.kind) := by
  have hi := map_eq_of_forall₂ (nodes_of_draw h) fun i n hn => (Item.id_kind_of_node hn).symm
  have hs := congrArg (List.map fun p : Nat × Option Action =>
    (nodeId stem p.1, p.2.elim .entry Action.kind)) d.numbered_items
  rw [List.map_map, List.map_map] at hs
  exact hi.symm.trans hs

theorem ids_of_draw (h : d.draw stem = .ok g) :
    g.nodes.map (·.id) = d.stations.map fun s => nodeId stem s.number := by
  have hs := congrArg (List.map Prod.fst) (id_kinds_of_draw h)
  rwa [List.map_map, List.map_map] at hs

theorem nodup_ids_of_draw (h : d.draw stem = .ok g) : (g.nodes.map (·.id)).Nodup := by
  rw [ids_of_draw h, ← Function.comp_def, ← List.map_map]
  exact d.nodup_number_stations.map (nodeId_injective stem)

theorem exists_station (h : d.draw stem = .ok g) {n : Node} (hn : n ∈ g.nodes) :
    ∃ s ∈ d.stations, n.id = nodeId stem s.number ∧ n.kind = s.kind := by
  have hm : (n.id, n.kind) ∈ g.nodes.map fun n => (n.id, n.kind) := List.mem_map_of_mem hn
  rw [id_kinds_of_draw h, List.mem_map] at hm
  obtain ⟨s, hs, he⟩ := hm
  obtain ⟨h1, h2⟩ := Prod.mk.inj he
  exact ⟨s, hs, h1.symm, h2.symm⟩

theorem exists_node (h : d.draw stem = .ok g) {s : Station} (hs : s ∈ d.stations) :
    ∃ n ∈ g.nodes, n.id = nodeId stem s.number ∧ n.kind = s.kind := by
  have hm : (nodeId stem s.number, s.kind) ∈
      d.stations.map fun s => (nodeId stem s.number, s.kind) := List.mem_map_of_mem hs
  rw [← id_kinds_of_draw h, List.mem_map] at hm
  obtain ⟨n, hn, he⟩ := hm
  obtain ⟨h1, h2⟩ := Prod.mk.inj he
  exact ⟨n, hn, h1, h2⟩

theorem mem_edges_of_draw (h : d.draw stem = .ok g) {e : Edge} :
    e ∈ g.edges ↔ ∃ s ∈ d.stations, ∃ l ∈ s.links, l.edge stem = e := by
  rw [edges_of_draw h, List.mem_map]
  constructor
  · intro hx
    obtain ⟨l, hl, he⟩ := hx
    obtain ⟨s, hs, hl⟩ := Document.mem_links.mp hl
    exact ⟨s, hs, l, hl, he⟩
  · intro hx
    obtain ⟨s, hs, l, hl, he⟩ := hx
    exact ⟨l, Document.mem_links.mpr ⟨s, hs, hl⟩, he⟩

/-- The edges that leave a station are its links. -/
theorem mem_edges_of_station (h : d.draw stem = .ok g) {s : Station} (hs : s ∈ d.stations)
    {e : Edge} (hsource : e.source = nodeId stem s.number) :
    e ∈ g.edges ↔ ∃ l ∈ s.links, l.edge stem = e := by
  rw [mem_edges_of_draw h]
  constructor
  · intro hx
    obtain ⟨s', hs', l, hl, rfl⟩ := hx
    have hnumber : s'.number = s.number :=
      (Station.source_of_mem_links hl).symm.trans (nodeId_inj.mp hsource)
    rw [Document.station_eq hs' hs hnumber] at hl
    exact ⟨l, hl, rfl⟩
  · intro hx
    obtain ⟨l, hl, he⟩ := hx
    exact ⟨s, hs, l, hl, he⟩

theorem hasNode_of_station (h : d.draw stem = .ok g) {s : Station} (hs : s ∈ d.stations) {n : Nat}
    (hn : n = s.number) : g.hasNode (nodeId stem n) := by
  obtain ⟨m, hm, hid, -⟩ := exists_node h hs
  exact List.any_eq_true.mpr ⟨m, hm, by simp [hid, hn]⟩

theorem outgoing_of_station (h : d.draw stem = .ok g) {s : Station} (hs : s ∈ d.stations) :
    (g.outgoing (nodeId stem s.number)).Perm (s.links.map (Link.edge stem)) := by
  unfold Graph.outgoing
  rw [edges_of_draw h, List.filter_map]
  refine List.Perm.map _ ?_
  rw [List.perm_ext_iff_of_nodup (d.nodup_links.filter _) s.nodup_ports_links.of_map]
  intro l
  simp only [List.mem_filter, Function.comp_apply, Link.edge, Edge.structural, beq_iff_eq,
    nodeId_inj]
  constructor
  · intro hx
    obtain ⟨hl, hsource⟩ := hx
    exact (Document.mem_links_of_station hs hsource).mp hl
  · intro hl
    have hsource := Station.source_of_mem_links hl
    exact ⟨(Document.mem_links_of_station hs hsource).mpr hl, hsource⟩

theorem nodup_edge_ports (h : d.draw stem = .ok g) : (g.edges.map Edge.port).Nodup := by
  have hports : (d.outline.links.map (Edge.port ∘ Link.edge stem)) =
      (d.outline.links.map Link.port).map fun p => (nodeId stem p.1, p.2) := by
    rw [List.map_map]
    rfl
  rw [edges_of_draw h, List.map_map, hports]
  refine d.nodup_ports.map ?_
  rintro ⟨n, b⟩ ⟨n', b'⟩ heq
  simp only [Prod.mk.injEq, nodeId_inj] at heq
  obtain ⟨rfl, rfl⟩ := heq
  rfl

/-- The first edge with a tag that leaves a station is its link with the tag. -/
theorem target?_of_station (h : d.draw stem = .ok g) {s : Station} (hs : s ∈ d.stations)
    (b : Branch) : g.target? (nodeId stem s.number) b =
      (s.links.find? (·.branch == b)).map fun l => nodeId stem l.target := by
  unfold Graph.target?
  rw [edges_of_draw h, List.find?_map, Option.map_map]
  have hfind : d.outline.links.find? ((fun e => e.isStructural &&
      e.source == nodeId stem s.number && e.branch == b) ∘ Link.edge stem) =
      s.links.find? (·.branch == b) := by
    cases hl : s.links.find? (·.branch == b) with
    | none =>
      rw [List.find?_eq_none] at hl ⊢
      intro l hm hp
      simp only [Function.comp_apply, Link.edge, Edge.structural, Edge.isStructural,
        Bool.and_eq_true, beq_iff_eq, nodeId_inj] at hp
      have hms := (Document.mem_links_of_station hs hp.1.2).mp hm
      exact hl l hms (by simpa using hp.2)
    | some l =>
      have hm := List.mem_of_find?_eq_some hl
      have hb : l.branch = b := by simpa using List.find?_some hl
      have hsource := Station.source_of_mem_links hm
      have hl' : l ∈ d.outline.links := Document.mem_links.mpr ⟨s, hs, hm⟩
      refine find?_eq_some_of_unique hl' ?_ ?_
      · simp [Link.edge, Edge.structural, Edge.isStructural, hsource, hb]
      · intro l' hl'' hp
        simp only [Function.comp_apply, Link.edge, Edge.structural, Edge.isStructural,
          Bool.and_eq_true, beq_iff_eq, nodeId_inj] at hp
        have hport : l'.port = l.port := by
          rw [Link.port, Link.port, hp.1.2, hp.2, hsource, hb]
        exact Document.link_eq_of_port hl'' hl' hport
  rw [hfind]
  rfl

end

/-- A loop around an `if` with an action after it, and an action with a note after the loop. -/
def Document.sample : Document :=
  ⟨[⟨some "main", none, none, none, [],
    [.loop (.forEach (some (.str "rows")) (some (.str "row"))) []
      [.branch (some (.str "ok")) [] [.leaf "click" []] [], .leaf "wait" []],
     .leaf "log" [("message", .str "done"),
       (noteKey, .obj [("content", .str "Says so."), ("configHash", .str "0123456789ab")])]]⟩], []⟩

end ScriptFlow
