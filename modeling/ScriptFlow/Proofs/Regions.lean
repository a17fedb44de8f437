import ScriptFlow.Proofs.Classes
import ScriptFlow.Proofs.Integrity
import Mathlib.Data.List.Pairwise

/-! The layout classes of a flow that stands on the outline of a document. A node is the vertex before
its number, links stay inside their capability and lead every station of it back to the entry, so the
classes are the capabilities, in document order. -/

namespace ScriptFlow

/-- The nodes and the structural edges of a graph are those of an outline, whatever is shown of them
and wherever they stand. -/
structure Graph.Outlined (stem : String) (d : Document) (g : Graph) : Prop where
  ids : g.ids = d.stations.map fun s => nodeId stem s.number
  edges : g.structuralEdges = d.outline.links.map (Link.edge stem)

/-- A loaded flow stands on the outline of its document. -/
theorem outlined_of_load {d : Document} {g : Graph} {settings : Settings}
    (h : d.load settings = .ok g) : g.Outlined defaultStem d := by
  obtain ⟨g', hdraw, hg⟩ := bind_eq_ok.mp h
  cases hg
  have hplain : g'.structuralEdges = g'.edges :=
    List.filter_eq_self.mpr fun e he => isStructural_of_draw hdraw he
  refine ⟨(g'.ids_layout _ _).trans (ids_of_draw hdraw), ?_⟩
  rw [Graph.structuralEdges_annotate]
  exact hplain.trans (edges_of_draw hdraw)

theorem Capability.size_pos (c : Capability) : 0 < c.size := by
  rw [size]
  omega

namespace Document

variable {d : Document} {s : Station}

theorem number_mem (hs : s ∈ d.stations) : 1 ≤ s.number ∧ s.number < 1 + d.stations.length := by
  have hm : s.number ∈ d.stations.map Station.number := List.mem_map_of_mem hs
  rw [d.number_stations] at hm
  exact List.mem_range'_1.mp hm

theorem exists_number {n : Nat} (h : 1 ≤ n ∧ n < 1 + d.stations.length) :
    ∃ s ∈ d.stations, s.number = n := by
  have hm : n ∈ d.stations.map Station.number := by
    rw [d.number_stations]
    exact List.mem_range'_1.mpr h
  exact List.mem_map.mp hm

/-- A capability begins where the one before ends. -/
theorem pairwise_placed (d : Document) :
    d.placed.Pairwise fun p q => p.1 + p.2.size ≤ q.1 := by
  have h : ∀ (n : Nat) (cs : List Capability),
      (collect (fun n c => [(n, c)]) n cs).Pairwise (fun p q => p.1 + p.2.size ≤ q.1) ∧
        ∀ p ∈ collect (fun n c => [(n, c)]) n cs, n ≤ p.1 := by
    intro n cs
    induction cs generalizing n with
    | nil => exact ⟨.nil, by simp [collect]⟩
    | cons c cs ih =>
      obtain ⟨hpairs, hfrom⟩ := ih (n + c.size)
      refine ⟨List.pairwise_cons.mpr ⟨hfrom, hpairs⟩, List.forall_mem_cons.mpr ⟨Nat.le_refl n, ?_⟩⟩
      intro p hp
      exact Nat.le_trans (Nat.le_add_right n c.size) (hfrom p hp)
  exact (h 1 d.capabilities).1

end Document

/-- The vertex that a station stands for. -/
def Station.vertex (s : Station) : Nat := s.number - 1

/-- The vertices of a capability whose entry has a number. -/
def Capability.vertices (p : Nat × Capability) : List Nat := List.range' (p.1 - 1) p.2.size

namespace Capability

variable {d : Document} {p q : Nat × Capability} {s : Station} {v : Nat}

theorem number_placed (hp : p ∈ d.placed) : 1 ≤ p.1 :=
  (Document.number_mem (Document.station_of_placed hp)).1

theorem vertices_eq (hp : p ∈ d.placed) : vertices p = (p.2.stations p.1).map Station.vertex := by
  have h := congrArg (List.map (· - 1)) (p.2.number_stations p.1)
  rw [List.map_map, List.map_sub_range' (number_placed hp)] at h
  exact h.symm

theorem mem_vertices (hp : p ∈ d.placed) :
    v ∈ vertices p ↔ ∃ s ∈ p.2.stations p.1, s.vertex = v := by
  rw [vertices_eq hp, List.mem_map]

theorem headD_vertices (p : Nat × Capability) : (vertices p).headD 0 = p.1 - 1 := by
  have hsize := p.2.size_pos
  rw [vertices]
  cases hn : p.2.size with
  | zero => omega
  | succ n => rw [List.range'_succ, List.headD_cons]

theorem nodup_vertices (p : Nat × Capability) : (vertices p).Nodup := List.nodup_range'

/-- Capabilities share no vertex. -/
theorem placed_eq (hp : p ∈ d.placed) (hq : q ∈ d.placed) (hvp : v ∈ vertices p)
    (hvq : v ∈ vertices q) : p = q := by
  simp only [vertices, List.mem_range'_1] at hvp hvq
  have h1 := number_placed hp
  have h2 := number_placed hq
  by_contra hne
  have hpairs : d.placed.Pairwise fun p q => p.1 + p.2.size ≤ q.1 ∨ q.1 + q.2.size ≤ p.1 :=
    d.pairwise_placed.imp Or.inl
  have hsymm : Std.Symm fun p q : Nat × Capability =>
      p.1 + p.2.size ≤ q.1 ∨ q.1 + q.2.size ≤ p.1 := ⟨fun _ _ => Or.symm⟩
  have hapart := hpairs.forall hp hq hne
  omega

end Capability

namespace Graph

section

variable {stem : String} {d : Document} {g : Graph} {p : Nat × Capability} {s : Station}

namespace Outlined

theorem nodup_ids (h : g.Outlined stem d) : g.ids.Nodup := by
  rw [h.ids, ← Function.comp_def, ← List.map_map]
  exact d.nodup_number_stations.map (nodeId_injective stem)

theorem id_vertex (h : g.Outlined stem d) (hs : s ∈ d.stations) :
    g.ids[s.vertex]? = some (nodeId stem s.number) := by
  have hnumber := Document.number_mem hs
  have hat : (d.stations.map Station.number)[s.vertex]? = some s.number := by
    rw [d.number_stations, List.getElem?_range' (by rw [Station.vertex]; omega)]
    exact congrArg some (by rw [Station.vertex]; omega)
  rw [h.ids, ← Function.comp_def, ← List.map_map, List.getElem?_map, hat, Option.map_some]

theorem lastIndex?_ids (h : g.Outlined stem d) (hs : s ∈ d.stations) :
    lastIndex? g.ids (nodeId stem s.number) = some s.vertex :=
  lastIndex?_eq_some h.nodup_ids (h.id_vertex hs)

theorem order (h : g.Outlined stem d) : g.topology.order = List.range d.stations.length := by
  rw [topology, filterMap_lastIndex? h.nodup_ids, h.ids, List.length_map]

theorem mem_order (h : g.Outlined stem d) {v : Nat} :
    v ∈ g.topology.order ↔ ∃ p ∈ d.placed, v ∈ Capability.vertices p := by
  rw [h.order, List.mem_range]
  constructor
  · intro hv
    obtain ⟨s, hs, hnumber⟩ := Document.exists_number (d := d) (n := v + 1) (by omega)
    obtain ⟨p, hp, hsp⟩ := Document.mem_stations.mp hs
    exact ⟨p, hp, (Capability.mem_vertices hp).mpr ⟨s, hsp, by rw [Station.vertex]; omega⟩⟩
  · rintro ⟨p, hp, hv⟩
    obtain ⟨s, hs, rfl⟩ := (Capability.mem_vertices hp).mp hv
    have hnumber := Document.number_mem (Document.mem_stations.mpr ⟨p, hp, hs⟩)
    rw [Station.vertex]
    omega

/-- The arc of a link. -/
theorem arc?_edge (h : g.Outlined stem d) {t : Station} {l : Link} (hs : s ∈ d.stations)
    (ht : t ∈ d.stations) (hsource : l.source = s.number) (htarget : l.target = t.number)
    (hne : s.number ≠ t.number) :
    g.arc? (l.edge stem) = some ⟨s.vertex, t.vertex, l.branch == .loopBack⟩ := by
  have hids : nodeId stem s.number ≠ nodeId stem t.number := fun he => hne (nodeId_inj.mp he)
  simp only [arc?, Link.edge, Edge.structural, hsource, htarget, if_neg hids, h.lastIndex?_ids hs,
    h.lastIndex?_ids ht]

/-- The arcs are the links between two stations of a capability. -/
theorem mem_arcs (h : g.Outlined stem d) {a : Arc} : a ∈ g.topology.arcs ↔
    ∃ p ∈ d.placed, ∃ s ∈ p.2.stations p.1, ∃ t ∈ p.2.stations p.1, ∃ l ∈ s.links,
      l.target = t.number ∧ a = ⟨s.vertex, t.vertex, l.branch == .loopBack⟩ := by
  have harc : ∀ p ∈ d.placed, ∀ s ∈ p.2.stations p.1, ∀ t ∈ p.2.stations p.1, ∀ l ∈ s.links,
      t.number = l.target → t.number ≠ s.number →
        g.arc? (l.edge stem) = some ⟨s.vertex, t.vertex, l.branch == .loopBack⟩ := by
    intro p hp s hs t ht l hl htarget hne
    exact h.arc?_edge (Document.mem_stations.mpr ⟨p, hp, hs⟩)
      (Document.mem_stations.mpr ⟨p, hp, ht⟩) (Station.source_of_mem_links hl) htarget.symm hne.symm
  simp only [topology, h.edges, List.filterMap_map, List.mem_filterMap, Function.comp_apply]
  constructor
  · rintro ⟨l, hl, hla⟩
    obtain ⟨s, hs, hl⟩ := Document.mem_links.mp hl
    obtain ⟨p, hp, hsp⟩ := Document.mem_stations.mp hs
    obtain ⟨t, ht, htarget, -, hne⟩ := Capability.exists_target hsp hl
    rw [harc p hp s hsp t ht l hl htarget hne] at hla
    exact ⟨p, hp, s, hsp, t, ht, l, hl, htarget.symm, (Option.some.inj hla).symm⟩
  · rintro ⟨p, hp, s, hs, t, ht, l, hl, htarget, rfl⟩
    obtain ⟨t', ht', htarget', -, hne⟩ := Capability.exists_target hs hl
    refine ⟨l, Document.mem_links.mpr ⟨s, Document.mem_stations.mpr ⟨p, hp, hs⟩, hl⟩, ?_⟩
    exact harc p hp s hs t ht l hl htarget.symm (by omega)

/-- Every station of a capability is chained to its entry. -/
theorem chained_entry (h : g.Outlined stem d) (hp : p ∈ d.placed) (hs : s ∈ p.2.stations p.1) :
    Chained g.topology.arcs (p.1 - 1) s.vertex := by
  induction hn : s.number using Nat.strongRecOn generalizing s with
  | ind n ih =>
    subst hn
    by_cases hentry : s.action? = none
    · rw [Station.vertex, (Capability.action?_eq_none hs).mp hentry]
      exact .refl _ _
    · obtain ⟨t, ht, l, hl, htarget, hb⟩ := Capability.led_to hs hentry
      have hlt : t.number < s.number := by
        rcases Capability.link_inside ht hl with ⟨-, h1, -⟩ | ⟨hback, -⟩
        · rwa [htarget] at h1
        · exact absurd hback hb
      have harc := h.mem_arcs.mpr ⟨p, hp, t, ht, s, hs, l, hl, htarget, rfl⟩
      exact (ih t.number hlt ht rfl).trans (.of_mem harc)

/-- Arcs do not leave a capability. -/
theorem mem_vertices_iff_of_arc (h : g.Outlined stem d) (hp : p ∈ d.placed) {a : Arc}
    (ha : a ∈ g.topology.arcs) :
    a.source ∈ Capability.vertices p ↔ a.target ∈ Capability.vertices p := by
  obtain ⟨q, hq, s, hs, t, ht, l, -, -, rfl⟩ := h.mem_arcs.mp ha
  have hsource : s.vertex ∈ Capability.vertices q := (Capability.mem_vertices hq).mpr ⟨s, hs, rfl⟩
  have htarget : t.vertex ∈ Capability.vertices q := (Capability.mem_vertices hq).mpr ⟨t, ht, rfl⟩
  constructor
  · intro hm
    rwa [Capability.placed_eq hp hq hm hsource]
  · intro hm
    rwa [Capability.placed_eq hp hq hm htarget]

theorem chained_iff (h : g.Outlined stem d) (hp : p ∈ d.placed) {u v : Nat}
    (hu : u ∈ Capability.vertices p) :
    Chained g.topology.arcs v u ↔ v ∈ Capability.vertices p := by
  constructor
  · intro hc
    have hiff := hc.eq_of_ends (t := fun v => v ∈ Capability.vertices p)
      fun a ha => propext (h.mem_vertices_iff_of_arc hp ha)
    exact hiff.symm ▸ hu
  · intro hv
    obtain ⟨s, hs, rfl⟩ := (Capability.mem_vertices hp).mp hu
    obtain ⟨t, ht, rfl⟩ := (Capability.mem_vertices hp).mp hv
    exact (h.chained_entry hp ht).symm.trans (h.chained_entry hp hs)

/-- The vertices of one class are those of a capability, in node order. -/
theorem filter_root (h : g.Outlined stem d) (hp : p ∈ d.placed) {u : Nat}
    (hu : u ∈ Capability.vertices p) :
    (g.topology.order.filter fun v => g.topology.forest.root v == g.topology.forest.root u) =
      Capability.vertices p := by
  have hsorted : (g.topology.order.filter fun v =>
      g.topology.forest.root v == g.topology.forest.root u).Pairwise (· < ·) := by
    rw [h.order]
    exact List.pairwise_lt_range.filter _
  refine List.Perm.eq_of_pairwise (fun a b _ _ hab hba => ?_) hsorted
    (List.pairwise_lt_range' 1) ?_
  · exact absurd hab (Nat.lt_asymm hba)
  · refine (List.perm_ext_iff_of_nodup hsorted.nodup (Capability.nodup_vertices p)).mpr fun v => ?_
    rw [List.mem_filter, beq_iff_eq, Topology.root_eq_iff, h.chained_iff hp hu, h.mem_order]
    exact ⟨And.right, fun hv => ⟨⟨p, hp, hv⟩, hv⟩⟩

/-- Each capability is one class, in document order. -/
theorem classes (h : g.Outlined stem d) :
    g.topology.classes = d.placed.map Capability.vertices := by
  have hstarts : (d.placed.map Capability.vertices).Pairwise fun b c => b.headD 0 < c.headD 0 := by
    refine List.pairwise_map.mpr (d.pairwise_placed.imp_of_mem ?_)
    intro p q hp hq hpq
    have hsize := p.2.size_pos
    have hpos := Capability.number_placed hp
    rw [Capability.headD_vertices, Capability.headD_vertices]
    omega
  have hmem : ∀ c, c ∈ g.topology.classes ↔ c ∈ d.placed.map Capability.vertices := by
    intro c
    rw [Topology.mem_classes, List.mem_map]
    constructor
    · rintro ⟨v, hv, rfl⟩
      obtain ⟨p, hp, hvp⟩ := h.mem_order.mp hv
      exact ⟨p, hp, (h.filter_root hp hvp).symm⟩
    · rintro ⟨p, hp, rfl⟩
      have hv : p.1 - 1 ∈ Capability.vertices p :=
        List.mem_range'_1.mpr ⟨Nat.le_refl _, by have := p.2.size_pos; omega⟩
      exact ⟨p.1 - 1, h.mem_order.mpr ⟨p, hp, hv⟩, (h.filter_root hp hv).symm⟩
  have hheads : ((d.placed.map Capability.vertices).map (·.headD 0)).Nodup :=
    (List.pairwise_map.mpr hstarts).nodup
  have hperm := (List.perm_ext_iff_of_nodup g.topology.nodup_classes hheads.of_map).mpr hmem
  refine List.Perm.eq_of_pairwise ?_ g.topology.pairwise_classes (hstarts.imp Nat.le_of_lt) hperm
  intro b c hb hc hbc hcb
  exact List.inj_on_of_nodup_map hheads ((hmem b).mp hb) hc (Nat.le_antisymm hbc hcb)

end Outlined

end

end Graph

end ScriptFlow
