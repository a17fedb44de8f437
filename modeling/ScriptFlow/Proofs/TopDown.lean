import ScriptFlow.Proofs.Places
import ScriptFlow.Proofs.Regions

/-! Loaded flows read from top to bottom, measured exactly. A way is a chain of structural edges none
of which leads back to a loop; the row of a node is the length of the longest way from the entry of its
capability, so an edge goes down unless it leads back to a loop, and the capabilities stand below each
other in document order. -/

namespace ScriptFlow

namespace Graph

/-- A way of so many structural edges, none back to a loop, from one id to another. -/
inductive Down (g : Graph) : Nat → String → String → Prop
  | here (id : String) : Down g 0 id id
  | step {k : Nat} {id : String} {e : Edge} : Down g k id e.source → e ∈ g.structuralEdges →
      e.branch ≠ .loopBack → Down g (k + 1) id e.target

/-- The row of a node in the component that it belongs to. -/
def row? (g : Graph) (sweeps : Nat) (id : String) : Option Nat := do
  let v ← lastIndex? g.ids id
  let c ← g.topology.components.find? (·.members.contains v)
  (c.rows sweeps).findIdx? (·.contains v)

section

variable {stem : String} {d : Document} {g : Graph} {p : Nat × Capability} {s t : Station}

/-- The component of a capability. -/
def region (g : Graph) (p : Nat × Capability) : Component :=
  g.topology.component (Capability.vertices p)

theorem Outlined.components (h : g.Outlined stem d) :
    g.topology.components = d.placed.map g.region := by
  rw [Topology.components, h.classes, List.map_map]
  rfl

theorem Outlined.mem_forward (h : g.Outlined stem d) (hp : p ∈ d.placed) {u v : Nat} :
    (u, v) ∈ (g.region p).forward ↔ ∃ s ∈ p.2.stations p.1, ∃ t ∈ p.2.stations p.1, ∃ l ∈ s.links,
      l.target = t.number ∧ l.branch ≠ .loopBack ∧ u = s.vertex ∧ v = t.vertex := by
  simp only [region, Topology.component, Component.forward, List.mem_map, List.mem_filter,
    List.contains_iff_mem, h.mem_arcs, Prod.mk.injEq]
  constructor
  · rintro ⟨-, ⟨⟨⟨q, hq, s, hs, t, ht, l, hl, htarget, rfl⟩, hsource⟩, hb⟩, rfl, rfl⟩
    have hsq : s.vertex ∈ Capability.vertices q := (Capability.mem_vertices hq).mpr ⟨s, hs, rfl⟩
    obtain rfl := Capability.placed_eq hp hq hsource hsq
    exact ⟨s, hs, t, ht, l, hl, htarget, by simpa using hb, rfl, rfl⟩
  · rintro ⟨s, hs, t, ht, l, hl, htarget, hb, rfl, rfl⟩
    exact ⟨_, ⟨⟨⟨p, hp, s, hs, t, ht, l, hl, htarget, rfl⟩,
      (Capability.mem_vertices hp).mpr ⟨s, hs, rfl⟩⟩, by simpa using hb⟩, rfl, rfl⟩

end

/-- The rows of the stations of a capability: a link leads at least one row down unless it leads back
to a loop, and a station that is not in the first row is one row below one that leads to it. -/
structure Ranked (g : Graph) (p : Nat × Capability) (rank : Nat → Nat) : Prop where
  rows : ∀ sweeps r, (((g.region p).rows sweeps).row r).Perm
    ((Capability.vertices p).filter (rank · == r))
  down : ∀ s ∈ p.2.stations p.1, ∀ t ∈ p.2.stations p.1, ∀ l ∈ s.links, l.target = t.number →
    l.branch ≠ .loopBack → rank s.vertex + 1 ≤ rank t.vertex
  tight : ∀ t ∈ p.2.stations p.1, rank t.vertex = 0 ∨ ∃ s ∈ p.2.stations p.1, ∃ l ∈ s.links,
    l.target = t.number ∧ l.branch ≠ .loopBack ∧ rank t.vertex = rank s.vertex + 1

section

variable {stem : String} {d : Document} {g : Graph} {p : Nat × Capability} {s t : Station}
  {rank : Nat → Nat}

theorem vertex_inj (hp : p ∈ d.placed) (hs : s ∈ p.2.stations p.1) (ht : t ∈ p.2.stations p.1)
    (h : s.vertex = t.vertex) : s = t := by
  have hsd := Document.mem_stations.mpr ⟨p, hp, hs⟩
  have htd := Document.mem_stations.mpr ⟨p, hp, ht⟩
  have h1 := Document.number_mem hsd
  have h2 := Document.number_mem htd
  refine Document.station_eq hsd htd ?_
  rw [Station.vertex, Station.vertex] at h
  omega

theorem Outlined.exists_ranked (h : g.Outlined stem d) (hp : p ∈ d.placed) :
    ∃ rank, g.Ranked p rank := by
  have hends : ∀ a ∈ (g.region p).forward, a.1 < a.2 ∧ a.1 ∈ (g.region p).members ∧
      a.2 ∈ (g.region p).members := by
    rintro ⟨u, v⟩ ha
    obtain ⟨s, hs, t, ht, l, hl, htarget, hb, rfl, rfl⟩ := (h.mem_forward hp).mp ha
    refine ⟨?_, (Capability.mem_vertices hp).mpr ⟨s, hs, rfl⟩,
      (Capability.mem_vertices hp).mpr ⟨t, ht, rfl⟩⟩
    have hnumber := Document.number_mem (Document.mem_stations.mpr ⟨p, hp, hs⟩)
    rcases Capability.link_inside hs hl with ⟨-, hlt, -⟩ | ⟨hback, -⟩
    · simp only [Station.vertex]
      omega
    · exact absurd hback hb
  have hwf : WellFounded fun u v => (u, v) ∈ (g.region p).forward :=
    Subrelation.wf (fun ha => (hends _ ha).1) Nat.lt_wfRel.wf
  have hnodup : (g.region p).members.Nodup := Capability.nodup_vertices p
  obtain ⟨rank, hranks, hdown, htight⟩ :=
    Component.exists_rank hnodup (fun a ha => (hends a ha).2) hwf
  have hfound := Component.found_perm hnodup
  refine ⟨rank, fun sweeps r => (Component.row_rows sweeps hranks r).trans (hfound.filter _),
    ?_, ?_⟩
  · intro s hs t ht l hl htarget hb
    exact hdown _ ((h.mem_forward hp).mpr ⟨s, hs, t, ht, l, hl, htarget, hb, rfl, rfl⟩)
  · intro t ht
    refine (htight t.vertex).imp_right ?_
    rintro ⟨⟨u, v⟩, ha, hv, hrank⟩
    obtain ⟨s, hs, t', ht', l, hl, htarget, hb, rfl, rfl⟩ := (h.mem_forward hp).mp ha
    obtain rfl := vertex_inj hp ht' ht hv
    exact ⟨s, hs, l, hl, htarget, hb, hrank⟩

namespace Ranked

/-- Only the entry of a capability stands in its first row. -/
theorem eq_zero_iff (h : g.Ranked p rank) (hs : s ∈ p.2.stations p.1) :
    rank s.vertex = 0 ↔ s.number = p.1 := by
  constructor
  · intro hzero
    by_contra hne
    have haction : s.action? ≠ none := fun hn => hne ((Capability.action?_eq_none hs).mp hn)
    obtain ⟨t, ht, l, hl, htarget, hb⟩ := Capability.led_to hs haction
    have := h.down t ht s hs l hl htarget hb
    omega
  · intro hentry
    refine (h.tight s hs).resolve_right ?_
    rintro ⟨t, ht, l, hl, htarget, -⟩
    obtain ⟨s', -, hs', hlt, -⟩ := Capability.exists_target ht hl
    omega

/-- The body of a loop stands below the loop. -/
theorem lt_of_loopAround (h : g.Ranked p rank) (ht : t ∈ p.2.stations p.1) (hts : t.LoopAround s) :
    rank t.vertex < rank s.vertex := by
  obtain ⟨head, extra, body, ha, hs⟩ := hts
  have hinside : ∀ u ∈ Action.listStations (some t.number) (.backTo t.number) (t.number + 1) body,
      u ∈ p.2.stations p.1 := by
    intro u hu
    refine Capability.stations_subset ht ha u ?_
    rw [Action.stations]
    exact List.mem_cons_of_mem _ hu
  induction hn : s.number using Nat.strongRecOn generalizing s with
  | ind n ih =>
    subst hn
    by_cases hfirst : s.number = t.number + 1
    · have hbody : body ≠ [] := by
        rintro rfl
        simp [Action.listStations] at hs
      have hl : ⟨t.number, t.number + 1, .body⟩ ∈ t.links := by
        simp [Station.links, ha, Action.mem_entryLink, hbody]
      exact h.down t ht s (hinside s hs) _ hl hfirst.symm (by simp)
    · obtain ⟨u, hu, l, hl, htarget, hb⟩ :=
        Action.led_to_of_mem_listStations _ _ _ body s hs hfirst
      have hlt : u.number < s.number := by
        rcases Capability.link_inside (hinside u hu) hl with ⟨-, h1, -⟩ | ⟨hback, -⟩
        · rwa [htarget] at h1
        · exact absurd hback hb
      have hdown := h.down u (hinside u hu) s (hinside s hs) l hl htarget hb
      have hbelow := ih u.number hlt hu rfl
      omega

/-- A link back to a loop leads up. -/
theorem up (h : g.Ranked p rank) (hp : p ∈ d.placed) (hs : s ∈ p.2.stations p.1)
    (ht : t ∈ p.2.stations p.1) {l : Link} (hl : l ∈ s.links) (htarget : l.target = t.number)
    (hb : l.branch = .loopBack) : rank t.vertex < rank s.vertex := by
  have hloop : s.loop? = some t.number := by
    rcases Capability.link_inside hs hl with ⟨hne, -⟩ | ⟨-, hloop, -⟩
    · exact absurd hb hne
    · rwa [htarget] at hloop
  obtain ⟨u, hu, hnumber, haround, -⟩ :=
    Document.nearest_loop (Document.mem_stations.mpr ⟨p, hp, hs⟩) hloop
  obtain rfl := Document.station_eq hu (Document.mem_stations.mpr ⟨p, hp, ht⟩) hnumber
  exact h.lt_of_loopAround ht haround

/-- A way down is at most as long as the rows that it passes. -/
theorem le_of_down (h : g.Ranked p rank) (hg : g.Outlined stem d) (hp : p ∈ d.placed) {k : Nat}
    {id : String} (hway : g.Down k (nodeId stem p.1) id) :
    ∃ s ∈ p.2.stations p.1, id = nodeId stem s.number ∧ k ≤ rank s.vertex := by
  generalize hstart : nodeId stem p.1 = start at hway
  induction hway with
  | here =>
    exact ⟨_, List.mem_cons_self, hstart.symm, Nat.zero_le _⟩
  | @step k _ e _ he hb ih =>
    obtain ⟨s, hs, hsource, hk⟩ := ih hstart
    rw [hg.edges, List.mem_map] at he
    obtain ⟨l, hl, rfl⟩ := he
    have hsd := Document.mem_stations.mpr ⟨p, hp, hs⟩
    have hl' := (Document.mem_links_of_station hsd (nodeId_inj.mp hsource)).mp hl
    obtain ⟨t, ht, htarget, -⟩ := Capability.exists_target hs hl'
    have := h.down s hs t ht l hl' htarget.symm hb
    exact ⟨t, ht, congrArg (nodeId stem) htarget.symm, by omega⟩

/-- Down to every station leads a way as long as its row. -/
theorem down_to (h : g.Ranked p rank) (hg : g.Outlined stem d) (hp : p ∈ d.placed)
    (hs : s ∈ p.2.stations p.1) :
    g.Down (rank s.vertex) (nodeId stem p.1) (nodeId stem s.number) := by
  induction hr : rank s.vertex generalizing s with
  | zero =>
    rw [(h.eq_zero_iff hs).mp hr]
    exact .here _
  | succ r ih =>
    rcases h.tight s hs with hzero | ⟨t, ht, l, hl, htarget, hb, hrank⟩
    · omega
    · have hway := ih ht (by omega)
      have hedge : l.edge stem ∈ g.structuralEdges := by
        rw [hg.edges]
        exact List.mem_map_of_mem
          (Document.mem_links.mpr ⟨t, Document.mem_stations.mpr ⟨p, hp, ht⟩, hl⟩)
      rw [← htarget]
      rw [← Station.source_of_mem_links hl] at hway
      exact .step (e := l.edge stem) hway hedge hb

theorem mem_row (h : g.Ranked p rank) {sweeps r v : Nat} :
    v ∈ ((g.region p).rows sweeps).row r ↔ v ∈ Capability.vertices p ∧ rank v = r := by
  rw [(h.rows sweeps r).mem_iff, List.mem_filter, beq_iff_eq]

theorem row?_eq (h : g.Ranked p rank) (hg : g.Outlined stem d) (hp : p ∈ d.placed)
    (hs : s ∈ p.2.stations p.1) (sweeps : Nat) :
    g.row? sweeps (nodeId stem s.number) = some (rank s.vertex) := by
  have hsv : s.vertex ∈ Capability.vertices p := (Capability.mem_vertices hp).mpr ⟨s, hs, rfl⟩
  have hregion : g.topology.components.find? (·.members.contains s.vertex) = some (g.region p) := by
    rw [hg.components]
    refine find?_eq_some_of_unique (List.mem_map_of_mem hp) (List.contains_iff_mem.mpr hsv) ?_
    intro c hc hcs
    obtain ⟨q, hq, rfl⟩ := List.mem_map.mp hc
    rw [Capability.placed_eq hq hp (List.contains_iff_mem.mp hcs) hsv]
  have hrow : ∀ r (hr : r < ((g.region p).rows sweeps).length),
      ((g.region p).rows sweeps)[r].contains s.vertex ↔ rank s.vertex = r := by
    intro r hr
    have hmem : s.vertex ∈ ((g.region p).rows sweeps).row r ↔ rank s.vertex = r :=
      h.mem_row.trans (and_iff_right hsv)
    rw [Rows.row, List.getElem?_eq_getElem hr, Option.getD_some] at hmem
    rw [List.contains_iff_mem, hmem]
  have hlt : rank s.vertex < ((g.region p).rows sweeps).length :=
    Rows.lt_length_of_mem_row (h.mem_row.mpr ⟨hsv, rfl⟩)
  have hfind : ((g.region p).rows sweeps).findIdx? (·.contains s.vertex) =
      some (rank s.vertex) := by
    refine List.findIdx?_eq_some_iff_getElem.mpr ⟨hlt, (hrow _ hlt).mpr rfl, fun j hj hm => ?_⟩
    exact Nat.ne_of_gt hj ((hrow j (Nat.lt_trans hj hlt)).mp hm)
  unfold row?
  rw [hg.lastIndex?_ids (Document.mem_stations.mpr ⟨p, hp, hs⟩)]
  simp only [Option.bind_eq_bind, Option.bind_some, hregion, hfind]

open Coordinate in
/-- The place of a station, by its row and by where its component starts. -/
theorem place?_eq {α : Type} [Coordinate α] (h : g.Ranked p rank) (hg : g.Outlined stem d)
    (geo : Geometry α) (sweeps : Nat) {i : Nat} (hi : d.placed[i]? = some p)
    (hs : s ∈ p.2.stations p.1) :
    ∃ a, g.place? geo sweeps (nodeId stem s.number) = some a ∧
      a.y = geo.margin + ofNat (rank s.vertex) * geo.stepY +
        geo.startAt (ofNat 0) (d.placed.map fun p => (g.region p).rows sweeps) i := by
  have hp : p ∈ d.placed := List.mem_of_getElem? hi
  have hsv : s.vertex ∈ Capability.vertices p := (Capability.mem_vertices hp).mpr ⟨s, hs, rfl⟩
  have hcomponent : g.topology.components[i]? = some (g.region p) := by
    rw [hg.components, List.getElem?_map, hi, Option.map_some]
  have hrow : s.vertex ∈ ((g.region p).rows sweeps).row (rank s.vertex) := h.mem_row.mpr ⟨hsv, rfl⟩
  obtain ⟨k, hk⟩ := List.mem_iff_getElem?.mp hrow
  obtain ⟨a, ha, -, hy⟩ := exists_place?_at geo hg.nodup_ids hcomponent hk
    (hg.id_vertex (Document.mem_stations.mpr ⟨p, hp, hs⟩))
  rw [hg.components, List.map_map] at hy
  exact ⟨a, ha, hy⟩

theorem exists_place (h : g.Ranked p rank) (hg : g.Outlined stem d) (geo : Geometry ℚ)
    (sweeps : Nat) {i : Nat} (hi : d.placed[i]? = some p) (hs : s ∈ p.2.stations p.1) :
    ∃ a, g.place? geo sweeps (nodeId stem s.number) = some a ∧ a.y = geo.rowTop (rank s.vertex) +
      geo.startAt (Coordinate.ofNat 0) (d.placed.map fun p => (g.region p).rows sweeps) i :=
  h.place?_eq hg geo sweeps hi hs

/-- A station ends within its component. -/
theorem lt_length (h : g.Ranked p rank) (hp : p ∈ d.placed) (hs : s ∈ p.2.stations p.1)
    (sweeps : Nat) : rank s.vertex < ((g.region p).rows sweeps).length :=
  Rows.lt_length_of_mem_row (h.mem_row.mpr ⟨(Capability.mem_vertices hp).mpr ⟨s, hs, rfl⟩, rfl⟩)

end Ranked

end

/-! The places that a loaded flow is drawn at. -/

/-- The topology is told by the ids, the entries, and the ends of structural edges with whether they
lead back to a loop. -/
theorem topology_congr_loops {g g' : Graph} (hids : g.ids = g'.ids)
    (hentries : g.nodes.map Node.isEntry = g'.nodes.map Node.isEntry)
    (hends : g.structuralEdges.map (fun e => (e.source, e.target, e.branch == .loopBack)) =
      g'.structuralEdges.map fun e => (e.source, e.target, e.branch == .loopBack)) :
    g.topology = g'.topology := by
  have hindices : ∀ g : Graph, (g.nodes.zipIdx.filter (·.1.isEntry)).map (·.2) =
      ((g.nodes.map Node.isEntry).zipIdx.filter (·.1)).map (·.2) := by
    intro g
    rw [List.zipIdx_map, List.filter_map, List.map_map]
    rfl
  -- an arc reads nothing else of its edge
  have harcs : ∀ g : Graph, g.structuralEdges.filterMap g.arc? = (g.structuralEdges.map fun e =>
      (e.source, e.target, e.branch == .loopBack)).filterMap fun t =>
        g.arc? ⟨"", t.1, t.2.1, if t.2.2 then .loopBack else .none, false, ""⟩ := by
    intro g
    rw [List.filterMap_map]
    refine List.filterMap_congr fun e _ => ?_
    have hback : ((if e.branch == .loopBack then .loopBack else .none : Branch) == .loopBack) =
        (e.branch == .loopBack) := by
      cases e.branch <;> rfl
    simp only [Function.comp_apply, arc?, hback]
  have harc : g.arc? = g'.arc? := by
    funext e
    rw [arc?, arc?, hids]
  rw [topology, topology, hindices g, hindices g', harcs g, harcs g', hentries, hends, hids, harc]

/-- In particular by the tags of the edges. -/
theorem topology_congr {g g' : Graph} (hids : g.ids = g'.ids)
    (hentries : g.nodes.map Node.isEntry = g'.nodes.map Node.isEntry)
    (hends : g.structuralEdges.map (fun e => (e.source, e.target, e.branch)) =
      g'.structuralEdges.map fun e => (e.source, e.target, e.branch)) :
    g.topology = g'.topology := by
  have hloops := congrArg (List.map fun t => (t.1, t.2.1, t.2.2 == Branch.loopBack)) hends
  rw [List.map_map, List.map_map] at hloops
  exact topology_congr_loops hids hentries hloops

end Graph

/-- A flow drawn from a document that reads from top to bottom. -/
structure ReadsDown (d : Document) (settings : Settings) (geo : Geometry ℚ) (g : Graph) : Prop where
  /-- The components are the capabilities in document order, each with its entry alone in the first
  row. -/
  components : List.Forall₂ (fun (c : Component) (p : Nat × Capability) =>
      c.members.map (g.ids[·]?) =
        (p.2.stations p.1).map (fun s => some (nodeId defaultStem s.number)) ∧
      ((c.rows settings.layoutSweeps).row 0).map (g.ids[·]?) = [some (nodeId defaultStem p.1)])
    g.topology.components d.placed
  entries : ∀ n ∈ g.nodes, n.isEntry ↔ g.row? settings.layoutSweeps n.id = some 0
  /-- The row of a node is the length of the longest way from the entry of its capability. -/
  rows : ∀ p ∈ d.placed, ∀ s ∈ p.2.stations p.1, ∃ r,
    g.row? settings.layoutSweeps (nodeId defaultStem s.number) = some r ∧
      g.Down r (nodeId defaultStem p.1) (nodeId defaultStem s.number) ∧
      ∀ k, g.Down k (nodeId defaultStem p.1) (nodeId defaultStem s.number) → k ≤ r
  /-- The nodes are drawn at their places, measured in floating-point numbers. -/
  drawn : ∀ n ∈ g.nodes, ∃ a, g.place? settings.geometry settings.layoutSweeps n.id = some a ∧
    n.position = ⟨a.x, a.y⟩
  edges : ∀ e ∈ g.structuralEdges, ∃ a b, g.place? geo settings.layoutSweeps e.source = some a ∧
    g.place? geo settings.layoutSweeps e.target = some b ∧
      (e.branch ≠ .loopBack → a.y + geo.nodeHeight + geo.verticalSpacing ≤ b.y) ∧
      (e.branch = .loopBack → b.y < a.y)
  /-- A capability stands below every earlier one. -/
  stacked : d.placed.Pairwise fun p q => ∀ s ∈ p.2.stations p.1, ∀ t ∈ q.2.stations q.1, ∃ a b,
    g.place? geo settings.layoutSweeps (nodeId defaultStem s.number) = some a ∧
      g.place? geo settings.layoutSweeps (nodeId defaultStem t.number) = some b ∧
      a.y + geo.nodeHeight + geo.capabilityGap ≤ b.y

section

variable {d : Document} {g g' : Graph} {settings : Settings} {geo : Geometry ℚ} {stem : String}

open ScriptFlow.Graph

theorem load_of_draw (h : d.draw defaultStem = .ok g') (settings : Settings) :
    d.load settings = .ok (g'.arrange settings).annotate := by
  rw [Document.load, h]
  rfl

/-- The entry of a capability is alone in the first row. -/
theorem first_row_of_ranked (hg : g.Outlined stem d) {p : Nat × Capability} (hp : p ∈ d.placed)
    {rank : Nat → Nat} (h : g.Ranked p rank) (sweeps : Nat) :
    (((g.region p).rows sweeps).row 0).map (g.ids[·]?) = [some (nodeId stem p.1)] := by
  have hentry : ⟨p.1, none, none, Onward.stops.before (p.1 + 1) p.2.actions⟩ ∈ p.2.stations p.1 :=
    List.mem_cons_self
  have hfirst : ((Capability.vertices p).filter (rank · == 0)).Perm [p.1 - 1] := by
    refine (List.perm_ext_iff_of_nodup ((Capability.nodup_vertices p).filter _)
      (List.nodup_singleton _)).mpr fun v => ?_
    rw [List.mem_filter, beq_iff_eq, List.mem_singleton, Capability.mem_vertices hp]
    constructor
    · rintro ⟨⟨s, hs, rfl⟩, hzero⟩
      exact congrArg (· - 1) ((h.eq_zero_iff hs).mp hzero)
    · rintro rfl
      exact ⟨⟨_, hentry, rfl⟩, (h.eq_zero_iff hentry).mpr rfl⟩
  rw [List.perm_singleton.mp ((h.rows sweeps 0).trans hfirst), List.map_singleton]
  exact congrArg (fun id => [id]) (hg.id_vertex (Document.mem_stations.mpr ⟨p, hp, hentry⟩))

/-- A node of a loaded flow stands for a station. -/
theorem exists_station_of_load (h : d.draw defaultStem = .ok g') {n : Node}
    (hn : n ∈ (g'.arrange settings).annotate.nodes) : ∃ p ∈ d.placed, ∃ s ∈ p.2.stations p.1,
      n.id = nodeId defaultStem s.number ∧ n.kind = s.kind := by
  obtain ⟨m, hm, rfl⟩ := List.mem_map.mp hn
  obtain ⟨s, hs, hid, hkind⟩ := exists_station h hm
  obtain ⟨p, hp, hsp⟩ := Document.mem_stations.mp hs
  exact ⟨p, hp, s, hsp, hid, hkind⟩

theorem Station.kind_eq_entry_iff {s : Station} : s.kind = .entry ↔ s.action? = none := by
  refine ⟨action?_eq_none_of_kind, fun h => ?_⟩
  rw [kind, h]
  rfl

/-- A loaded flow is drawn at the places of its own layout. -/
theorem drawn_of_load {n : Node} (hn : n ∈ (g'.arrange settings).annotate.nodes) : ∃ a,
    (g'.arrange settings).annotate.place? settings.geometry settings.layoutSweeps n.id = some a ∧
      n.position = ⟨a.x, a.y⟩ := by
  obtain ⟨a, ha, hposition⟩ := exists_place?_of_layout (g := g') hn
  refine ⟨a, ?_, hposition⟩
  -- moving nodes and adding data edges leaves the topology as it was
  have htopology : (g'.arrange settings).annotate.topology = g'.topology := by
    refine topology_congr (g'.ids_layout _ _) ?_ (congrArg _ (structuralEdges_annotate _))
    change (g'.nodes.map _).map Node.isEntry = g'.nodes.map Node.isEntry
    rw [List.map_map]
    rfl
  rw [← ha, place?, place?, htopology]
  exact congrArg₂ _ (congrArg (lastIndex? · n.id) (g'.ids_layout _ _)) rfl

namespace Graph.Outlined

variable {stem : String} {p : Nat × Capability} {s : Station}

theorem components_spec (hg : g.Outlined stem d) (sweeps : Nat) :
    List.Forall₂ (fun (c : Component) (p : Nat × Capability) =>
      c.members.map (g.ids[·]?) = (p.2.stations p.1).map (fun s => some (nodeId stem s.number)) ∧
      ((c.rows sweeps).row 0).map (g.ids[·]?) = [some (nodeId stem p.1)])
    g.topology.components d.placed := by
  rw [hg.components, List.forall₂_map_left_iff]
  refine List.forall₂_same.mpr fun p hp => ?_
  obtain ⟨rank, hrank⟩ := hg.exists_ranked hp
  refine ⟨?_, first_row_of_ranked hg hp hrank _⟩
  change (Capability.vertices p).map _ = _
  rw [Capability.vertices_eq hp, List.map_map]
  refine List.map_congr_left fun s hs => ?_
  exact hg.id_vertex (Document.mem_stations.mpr ⟨p, hp, hs⟩)

theorem row_spec (hg : g.Outlined stem d) (hp : p ∈ d.placed) (hs : s ∈ p.2.stations p.1)
    (sweeps : Nat) : ∃ r, g.row? sweeps (nodeId stem s.number) = some r ∧
      g.Down r (nodeId stem p.1) (nodeId stem s.number) ∧
      ∀ k, g.Down k (nodeId stem p.1) (nodeId stem s.number) → k ≤ r := by
  obtain ⟨rank, hrank⟩ := hg.exists_ranked hp
  refine ⟨rank s.vertex, hrank.row?_eq hg hp hs _, hrank.down_to hg hp hs, fun k hk => ?_⟩
  obtain ⟨t, ht, hid, hle⟩ := hrank.le_of_down hg hp hk
  have hst : s = t := Document.station_eq (Document.mem_stations.mpr ⟨p, hp, hs⟩)
    (Document.mem_stations.mpr ⟨p, hp, ht⟩) (nodeId_inj.mp hid)
  rwa [hst]

theorem edge_spec (hg : g.Outlined stem d) (hgeo : geo.Fair) (sweeps : Nat) {e : Edge}
    (he : e ∈ g.structuralEdges) : ∃ a b, g.place? geo sweeps e.source = some a ∧
      g.place? geo sweeps e.target = some b ∧
      (e.branch ≠ .loopBack → a.y + geo.nodeHeight + geo.verticalSpacing ≤ b.y) ∧
      (e.branch = .loopBack → b.y < a.y) := by
  rw [hg.edges, List.mem_map] at he
  obtain ⟨l, hl, rfl⟩ := he
  obtain ⟨s, hsd, hl⟩ := Document.mem_links.mp hl
  obtain ⟨p, hp, hs⟩ := Document.mem_stations.mp hsd
  obtain ⟨t, ht, htarget, -⟩ := Capability.exists_target hs hl
  obtain ⟨i, hi⟩ := List.mem_iff_getElem?.mp hp
  obtain ⟨rank, hrank⟩ := hg.exists_ranked hp
  obtain ⟨a, ha, hay⟩ := hrank.exists_place hg geo sweeps hi hs
  obtain ⟨b, hb, hby⟩ := hrank.exists_place hg geo sweeps hi ht
  rw [← Station.source_of_mem_links hl] at ha
  rw [htarget] at hb
  refine ⟨a, b, ha, hb, ?_, ?_⟩
  · intro hforward
    have hdown := hgeo.spaced.rowTop_succ (hrank.down s hs t ht l hl htarget.symm hforward)
    rw [hay, hby]
    linarith
  · intro hback
    have hup := hgeo.spaced.rowTop_succ (hrank.up hp hs ht hl htarget.symm hback)
    have hheight := hgeo.nodeHeight
    have hspacing := hgeo.verticalSpacing
    rw [hay, hby]
    linarith

theorem stacked (hg : g.Outlined stem d) (hgeo : geo.Fair) (sweeps : Nat) :
    d.placed.Pairwise fun p q => ∀ s ∈ p.2.stations p.1, ∀ t ∈ q.2.stations q.1, ∃ a b,
      g.place? geo sweeps (nodeId stem s.number) = some a ∧
        g.place? geo sweeps (nodeId stem t.number) = some b ∧
        a.y + geo.nodeHeight + geo.capabilityGap ≤ b.y := by
  refine List.pairwise_iff_getElem.mpr fun i j hi hj hij s hs t ht => ?_
  have hpi := List.getElem?_eq_getElem hi
  have hpj := List.getElem?_eq_getElem hj
  obtain ⟨rank, hrank⟩ := hg.exists_ranked (List.mem_of_getElem? hpi)
  obtain ⟨rank', hrank'⟩ := hg.exists_ranked (List.mem_of_getElem? hpj)
  obtain ⟨a, ha, hay⟩ := hrank.exists_place hg geo sweeps hpi hs
  obtain ⟨b, hb, hby⟩ := hrank'.exists_place hg geo sweeps hpj ht
  refine ⟨a, b, ha, hb, ?_⟩
  have hends := hgeo.spaced.rowTop_le_bottom (hrank.lt_length (List.mem_of_getElem? hpi) hs sweeps)
  have hrows : (d.placed.map fun p => (g.region p).rows sweeps)[i]? =
      some ((g.region d.placed[i]).rows sweeps) := by
    rw [List.getElem?_map, hpi, Option.map_some]
  have hstarts := hgeo.spaced.startAt_lt (Coordinate.ofNat 0) hij hrows (by rwa [List.length_map])
  have htop := hgeo.spaced.margin_le_rowTop (rank' t.vertex)
  have hmargin := hgeo.margin
  rw [hay, hby]
  linarith

end Graph.Outlined

/-- Every loaded flow reads from top to bottom. -/
theorem readsDown_of_draw (h : d.draw defaultStem = .ok g') (settings : Settings)
    (hgeo : geo.Fair) : ∃ g, d.load settings = .ok g ∧ ReadsDown d settings geo g := by
  have hload := load_of_draw h settings
  have hg := outlined_of_load hload
  refine ⟨_, hload, hg.components_spec _, ?_, fun p hp s hs => hg.row_spec hp hs _,
    fun n hn => drawn_of_load hn, fun e he => hg.edge_spec hgeo _ he, hg.stacked hgeo _⟩
  intro n hn
  obtain ⟨p, hp, s, hs, hid, hkind⟩ := exists_station_of_load h hn
  obtain ⟨rank, hrank⟩ := hg.exists_ranked hp
  rw [hid, hrank.row?_eq hg hp hs, Option.some.injEq, hrank.eq_zero_iff hs,
    ← Capability.action?_eq_none hs, ← Station.kind_eq_entry_iff, ← hkind]
  exact beq_iff_eq

end

/-- The standard geometry, measured exactly. -/
def Geometry.standard : Geometry ℚ := ⟨280, 160, 80, 150, 50, 100⟩

/-- Two capabilities, the second one with two branches that meet again. -/
def Document.pair : Document :=
  ⟨Document.sample.capabilities ++ [⟨"after", none, none, none, [],
    [.branch (some (.str "ok")) [] [.leaf "click" [], .leaf "wait" []] [.leaf "wait" []],
     .leaf "log" []]⟩], []⟩

theorem readsDown_of_draw_pair : (∃ g, Document.pair.draw defaultStem = .ok g) ∧
    Geometry.standard.Fair ∧ ∃ g, Document.pair.load .standard = .ok g ∧
      ReadsDown Document.pair .standard .standard g := by
  obtain ⟨g', hdraw⟩ : ∃ g, Document.pair.draw defaultStem = .ok g := ⟨_, rfl⟩
  have hfair : Geometry.standard.Fair := by
    constructor <;> norm_num [Geometry.standard]
  exact ⟨⟨g', hdraw⟩, hfair, readsDown_of_draw hdraw .standard hfair⟩

end ScriptFlow
