import ScriptFlow.Proofs.Advisory
import ScriptFlow.Proofs.Lookups

/-! Layout of any graph. Ids may repeat: then the members of a component do, and with them the roots,
the vertices that the search starts from and the queue, while the tables have each member once. A root
that is taken twice brings the counts of its targets below zero. Still every loop ends and every lookup
finds something, and what comes out is told by the topology, so a second layout changes nothing. -/

namespace ScriptFlow

namespace Component

variable {c : Component} {flag? : Nat → Option Bool}

/-- The component with each member once. -/
def once (c : Component) : Component := { c with members := c.members.eraseDups }

theorem mem_once {v : Nat} : v ∈ c.once.members ↔ v ∈ c.members := List.mem_eraseDups

/-- Searches from members that may repeat. -/
def searchKeyed? (c : Component) (roots : List Nat) : Option Trace := do
  let successors ← c.once.successors?
  (roots ++ c.members).foldlM (Trace.visit? successors) ⟨[], ⟨c.once.members, fun _ => []⟩⟩

/-- Ranks from a queue of members that may repeat. -/
def rankKeyed? (c : Component) (s : Trace) : Option (Table Nat) := do
  let degree ← (s.dag.keys.flatMap s.dag.value).foldlM (fun t v => t.change? v (· + 1))
    (⟨c.once.members, fun _ => 0⟩ : Table Int)
  c.rankFrom? s degree

variable {α : Type} [Coordinate α]

/-- The places of a component whose members may repeat, and its lower end. -/
def placeKeyed? (c : Component) (flag? : Nat → Option Bool) (geo : Geometry α) (sweeps : Nat) :
    Option (List (Placement α) × α) := do
  let roots ← c.roots? flag?
  let s ← c.searchKeyed? roots
  let rank ← c.rankKeyed? s
  let (rows, _) ← c.once.order? s rank sweeps
  let widest ← (rows.map List.length).max?
  some (rows.zipIdx.flatMap fun p => geo.placeRow widest p.2 p.1, geo.bottom rows)

theorem covers_once (hends : ∀ a ∈ c.forward, a.1 ∈ c.members ∧ a.2 ∈ c.members) :
    c.search.Covers c.once.members := by
  obtain ⟨hfound, hdag, hforward, -⟩ := c.search_spec
  exact ⟨hfound, hdag, fun a ha => (hends a (hforward a ha)).imp mem_once.mpr mem_once.mpr⟩

theorem searchKeyed?_eq (hends : ∀ a ∈ c.forward, a.1 ∈ c.members ∧ a.2 ∈ c.members) :
    c.searchKeyed? c.roots = some (c.search.trace c.once.members) := by
  have hsuccessors : c.once.successors? = some ⟨c.once.members, c.targets⟩ :=
    successors?_eq fun a ha => mem_once.mpr (hends a ha).1
  have htargets : ∀ u, ∀ v ∈ c.targets u, v ∈ c.once.members :=
    fun u v hv => mem_once.mpr (hends _ (mem_targets.mp hv)).2
  have hstarts : ∀ v ∈ c.roots ++ c.members, v ∈ c.once.members := fun v hv =>
    mem_once.mpr ((List.mem_append.mp hv).elim mem_of_mem_roots id)
  rw [searchKeyed?, hsuccessors, Option.bind_eq_bind, Option.bind_some]
  exact Search.foldlM_visit?_trace (nodup_eraseDups c.members) htargets (good_start _ _) hstarts

theorem rankKeyed?_eq (hends : ∀ a ∈ c.forward, a.1 ∈ c.members ∧ a.2 ∈ c.members) :
    c.rankKeyed? (c.search.trace c.once.members) =
      some ⟨c.once.members, ((c.initialRanking c.search).run (keptTargets c.search)).rank⟩ := by
  have hcovers := covers_once hends
  have hcounts := foldlM_count_keptTargets (nodup_eraseDups c.members) hcovers
  rw [rankKeyed?, Search.trace, hcounts, Option.bind_eq_bind, Option.bind_some]
  exact rankFrom?_eq (fun _ => mem_once) (fun _ => mem_found.mpr)
    fun a ha => mem_once.mp (hcovers.ends a ha).2

theorem placeKeyed?_eq (hends : ∀ a ∈ c.forward, a.1 ∈ c.members ∧ a.2 ∈ c.members)
    (hne : c.members ≠ []) (hentry : ∀ v ∈ c.members, flag? v = some (c.entries.contains v))
    (geo : Geometry α) (sweeps : Nat) : c.placeKeyed? flag? geo sweeps =
      some (geo.placeRows (c.rows sweeps), geo.bottom (c.rows sweeps)) := by
  obtain ⟨v, hv⟩ := List.exists_mem_of_ne_nil _ hne
  have hrows : c.rows sweeps ≠ [] := by
    obtain ⟨r, hr⟩ := c.exists_row sweeps hv
    exact List.length_pos_iff.mp (Nat.zero_lt_of_lt (Rows.lt_length_of_mem_row hr))
  -- the ranks need not be those of a component with distinct members
  obtain ⟨slots, horder, -⟩ := order?_ranked (nodup_eraseDups c.members) (covers_once hends)
    (List.ne_nil_of_mem (mem_once.mpr hv))
    ((c.initialRanking c.search).run (keptTargets c.search)).rank sweeps
  have horder : c.once.order? (c.search.trace c.once.members) ⟨c.once.members,
      ((c.initialRanking c.search).run (keptTargets c.search)).rank⟩ sweeps =
        some (c.rows sweeps, slots) := horder
  simp only [placeKeyed?, roots?_eq hentry, searchKeyed?_eq hends, rankKeyed?_eq hends, horder,
    max?_length hrows, Option.bind_eq_bind, Option.bind_some]
  rfl

end Component

namespace Graph

variable {α : Type} [Coordinate α] {g h : Graph} {v : Nat}

/-- Adds the places of a component below those before it. -/
def placeKeyedBelow? (g : Graph) (geo : Geometry α) (sweeps : Nat)
    (done : List (Placement α) × α) (members : List Nat) :
    Option (List (Placement α) × α) := do
  let (places, bottom) ← (g.topology.component members).placeKeyed?
    (fun v => g.nodes[v]?.map Node.isEntry) geo sweeps
  some (done.1 ++ places.map fun p => { p with y := p.y + done.2 },
    done.2 + (bottom + geo.capabilityGap))

def placesKeyed? (g : Graph) (geo : Geometry α) (sweeps : Nat) : Option (List (Placement α)) := do
  let classes ← g.topology.classes? g.ids.length
  let (places, _) ← classes.foldlM (g.placeKeyedBelow? geo sweeps) ([], Coordinate.ofNat 0)
  some places

/-- The layout of a graph in which ids may repeat, of steps that may fail. -/
def layoutKeyed? (g : Graph) (geo : Geometry Float) (sweeps : Nat) : Option Graph := do
  let places ← g.placesKeyed? geo sweeps
  let nodes ← g.nodes.mapM fun n => (g.placeOf? places n).map fun p => { n with position := p }
  some { g with nodes }

theorem lt_of_mem_order (hv : v ∈ g.topology.order) : v < g.ids.length := by
  obtain ⟨id, -, hid⟩ := List.mem_filterMap.mp hv
  exact (List.getElem?_eq_some_iff.mp (lastIndex?_spec hid)).1

theorem target_mem_order {a : Arc} (ha : a ∈ g.topology.arcs) : a.target ∈ g.topology.order := by
  obtain ⟨e, -, harc⟩ := mem_arcs.mp ha
  obtain ⟨-, -, htarget, -⟩ := arc?_eq_some.mp harc
  exact List.mem_filterMap.mpr
    ⟨e.target, List.mem_of_getElem? (lastIndex?_spec htarget), htarget⟩

theorem placeKeyedBelow?_eq (g : Graph) {members : List Nat} (hc : members ∈ g.topology.classes)
    (geo : Geometry α) (sweeps : Nat) (done : List (Placement α) × α) :
    g.placeKeyedBelow? geo sweeps done members = some
      (done.1 ++ (geo.placeRows ((g.topology.component members).rows sweeps)).map
        (fun p => { p with y := p.y + done.2 }),
      done.2 + (geo.bottom ((g.topology.component members).rows sweeps) + geo.capabilityGap)) := by
  have hends : ∀ a ∈ (g.topology.component members).forward, a.1 ∈ members ∧ a.2 ∈ members := by
    intro a ha
    obtain ⟨b, hb, rfl⟩ := List.mem_map.mp ha
    have hb := (List.mem_filter.mp hb).1
    exact Topology.ends_mem_of_mem_classes hc hb (target_mem_order (List.mem_filter.mp hb).1)
  have hentry : ∀ v ∈ members,
      g.nodes[v]?.map Node.isEntry = some (g.topology.entries.contains v) := fun v hv =>
    isEntry_eq (lt_of_mem_order ((Topology.sublist_of_mem_classes hc).subset hv))
  have hplace := Component.placeKeyed?_eq (c := g.topology.component members) hends
    (Topology.ne_nil_of_mem_classes hc) hentry geo sweeps
  rw [placeKeyedBelow?, hplace]
  rfl

theorem placesKeyed?_eq (g : Graph) (geo : Geometry α) (sweeps : Nat) :
    g.placesKeyed? geo sweeps = some (g.topology.place geo sweeps) := by
  obtain ⟨bottom, hplaces⟩ := geo.foldlM_stack_eq
    (fun _ hc => g.placeKeyedBelow?_eq hc geo sweeps) [] (Coordinate.ofNat 0)
  rw [placesKeyed?, Topology.classes?_eq (fun a ha => arc_lt ha) (fun v hv => lt_of_mem_order hv),
    Option.bind_eq_bind, Option.bind_some, hplaces, Topology.place, Topology.components,
    List.map_map]
  rfl

theorem layoutKeyed?_eq (g : Graph) (geo : Geometry Float) (sweeps : Nat) :
    g.layoutKeyed? geo sweeps = some (g.layout geo sweeps) := by
  rw [layoutKeyed?, placesKeyed?_eq, Option.bind_eq_bind, Option.bind_some, mapM_placeOf?_eq]
  rfl

/-- Graphs that agree in what a layout reads: the ids and the entries in node order, and the ends of
the structural edges with whether they lead back to a loop. -/
structure LaidAlike (g h : Graph) : Prop where
  nodes : g.nodes.map (fun n => (n.id, n.isEntry)) = h.nodes.map fun n => (n.id, n.isEntry)
  edges : g.structuralEdges.map (fun e => (e.source, e.target, e.branch == .loopBack)) =
    h.structuralEdges.map fun e => (e.source, e.target, e.branch == .loopBack)

theorem LaidAlike.ids (hgh : g.LaidAlike h) : g.ids = h.ids := by
  have hids := congrArg (List.map Prod.fst) hgh.nodes
  rwa [List.map_map, List.map_map] at hids

theorem LaidAlike.topology (hgh : g.LaidAlike h) : g.topology = h.topology := by
  have hentries := congrArg (List.map Prod.snd) hgh.nodes
  rw [List.map_map, List.map_map] at hentries
  exact topology_congr_loops hgh.ids hentries hgh.edges

theorem forall₂_layout (g : Graph) (geo : Geometry Float) (sweeps : Nat) :
    List.Forall₂ (fun n m => ∃ a, g.place? geo sweeps n.id = some a ∧
      m = { n with position := ⟨a.x, a.y⟩ }) g.nodes (g.layout geo sweeps).nodes := by
  refine List.forall₂_map_right_iff.mpr (List.forall₂_same.mpr fun n hn => ?_)
  obtain ⟨a, ha⟩ := exists_place? (List.mem_map_of_mem hn) geo sweeps
  refine ⟨a, ha, ?_⟩
  rw [placeOf?_eq, ha]
  rfl

theorem laidAlike_layout (g : Graph) (geo : Geometry Float) (sweeps : Nat) :
    (g.layout geo sweeps).LaidAlike g where
  nodes := by
    rw [layout, List.map_map]
    rfl
  edges := rfl

/-- Nodes that stand where they would be moved to stay there. -/
theorem layout_eq_self {geo : Geometry Float} {sweeps : Nat} (hgh : g.LaidAlike h)
    (hnodes : g.nodes = (h.layout geo sweeps).nodes) : g.layout geo sweeps = g := by
  refine congrArg (Graph.mk · g.edges) ((List.map_congr_left fun n hn => ?_).trans (List.map_id _))
  obtain ⟨a, ha, hposition⟩ := exists_place?_of_layout (hnodes ▸ hn)
  rw [placeOf?_eq, place?_congr hgh.ids hgh.topology, ha, Option.map_some, Option.getD_some,
    ← hposition]
  rfl

theorem layout_layout (g : Graph) (geo : Geometry Float) (sweeps : Nat) :
    (g.layout geo sweeps).layout geo sweeps = g.layout geo sweeps :=
  layout_eq_self (g.laidAlike_layout geo sweeps) rfl

/-- What a layout does to a graph. -/
structure LaidOut (g : Graph) (geo : Geometry Float) (sweeps : Nat) : Prop where
  /-- The loops end, no lookup fails and every node finds a place. -/
  ends : g.layoutKeyed? geo sweeps = some (g.layout geo sweeps)
  /-- No vertex has two places. -/
  once : ((g.topology.place geo sweeps).map (·.vertex)).Nodup
  /-- Node by node, nothing but the position is new. -/
  nodes : List.Forall₂ (fun n m => ∃ a, g.place? geo sweeps n.id = some a ∧
    m = { n with position := ⟨a.x, a.y⟩ }) g.nodes (g.layout geo sweeps).nodes
  edges : (g.layout geo sweeps).edges = g.edges
  /-- A second layout changes nothing. -/
  again : (g.layout geo sweeps).layout geo sweeps = g.layout geo sweeps

/-- A layout is told by the topology and touches nothing but positions, also where ways lead round,
edges lead nowhere and ids repeat. -/
theorem laidOut_by_topology (g : Graph) (geo : Geometry Float) (sweeps : Nat) :
    (∀ h : Graph, g.LaidAlike h → (g.layout geo sweeps).nodes.map (·.position) =
      (h.layout geo sweeps).nodes.map (·.position)) ∧ g.LaidOut geo sweeps where
  left _ hgh := positions_congr hgh.ids hgh.topology geo sweeps
  right :=
    { ends := g.layoutKeyed?_eq geo sweeps
      once := g.topology.nodup_place geo sweeps
      nodes := g.forall₂_layout geo sweeps
      edges := g.edges_layout geo sweeps
      again := g.layout_layout geo sweeps }

/-- An id twice, a cycle, an edge to itself, one to nowhere and one back to a loop. -/
def doubled : Graph where
  nodes := [⟨"a", .entry, "capability", [], .zero, [], [], []⟩,
    ⟨"b", .action, "wait", [], .zero, [], [], []⟩, ⟨"a", .entry, "capability", [], .zero, [], [], []⟩,
    ⟨"c", .loop, "while", [], .zero, [], [], []⟩, ⟨"d", .action, "wait", [], .zero, [], [], []⟩]
  edges := [.structural "a" "b" .none, .structural "b" "c" .none, .structural "c" "b" .body,
    .structural "c" "a" .loopBack, .structural "d" "d" .none, .structural "a" "e" .none,
    .data "a" "d" "x"]

/-- The same ids and edges, with other nodes behind the ids, other tags and no data edge. -/
def retagged : Graph where
  nodes := [⟨"a", .entry, "capability", [("name", .str "A")], ⟨1, 2⟩, [], [], ["x"]⟩,
    ⟨"b", .condition, "if", [], ⟨3, 4⟩, [], ["x"], []⟩,
    ⟨"a", .entry, "capability", [], .zero, [], [], []⟩,
    ⟨"c", .action, "wait", [], ⟨5, 6⟩, [("label", .str "C")], [], []⟩,
    ⟨"d", .loop, "forEach", [], .zero, [], [], []⟩]
  edges := [.structural "a" "b" .whenTrue, .structural "b" "c" .whenFalse,
    .structural "c" "b" .none, .structural "c" "a" .loopBack, .structural "d" "d" .body,
    .structural "a" "e" .none]

theorem laidOut_by_topology_retagged : doubled.LaidAlike retagged ∧
    ((doubled.layout ⟨280, 160, 80, 150, 50, 100⟩ 4).nodes.map (·.position) =
      (retagged.layout ⟨280, 160, 80, 150, 50, 100⟩ 4).nodes.map (·.position)) ∧
    doubled.LaidOut ⟨280, 160, 80, 150, 50, 100⟩ 4 := by
  have halike : doubled.LaidAlike retagged := ⟨by decide, by decide⟩
  obtain ⟨hpositions, hlaid⟩ := laidOut_by_topology doubled ⟨280, 160, 80, 150, 50, 100⟩ 4
  exact ⟨halike, hpositions retagged halike, hlaid⟩

end Graph

end ScriptFlow
