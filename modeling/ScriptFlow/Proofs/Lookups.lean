import ScriptFlow.Proofs.Places
import ScriptFlow.Proofs.Slots

/-! The components of a flow are its weakly connected parts, so whatever the layout looks up is there.
The layout is made once more of steps that may fail: each asks for a vertex in a table, for an index in
a list, or for the largest or the first member of a list. With distinct ids no step fails, and the
outcome is the layout. -/

namespace ScriptFlow

namespace Component

variable {c : Component} {flag? : Nat → Option Bool}

/-- The roots of a component, entries first, where the nodes are asked whether they are entries. -/
def roots? (c : Component) (flag? : Nat → Option Bool) : Option (List Nat) := do
  let flags ← c.members.mapM fun v => (flag? v).map fun b => (v, b)
  let entries := (flags.filter fun p => p.2 && !c.hasIncoming p.1).map (·.1)
  some (entries ++ (c.members.filter (!c.hasIncoming ·)).filter (!entries.contains ·))

theorem roots?_eq (h : ∀ v ∈ c.members, flag? v = some (c.entries.contains v)) :
    c.roots? flag? = some c.roots := by
  have hflags : c.members.mapM (fun v => (flag? v).map fun b => (v, b)) =
      some (c.members.map fun v => (v, c.entries.contains v)) :=
    mapM_eq_map fun v hv => by rw [h v hv, Option.map_some]
  have hentries : ((c.members.map fun v => (v, c.entries.contains v)).filter
      fun p => p.2 && !c.hasIncoming p.1).map (·.1) =
        (c.members.filter (!c.hasIncoming ·)).filter (c.entries.contains ·) := by
    rw [List.filter_map, List.map_map, List.filter_filter]
    exact List.map_id' _
  rw [roots?, hflags, Option.bind_eq_bind, Option.bind_some, hentries]
  rfl

variable {α : Type} [Coordinate α]

/-- The places of a component that starts at the top, and its lower end. -/
def place? (c : Component) (flag? : Nat → Option Bool) (geo : Geometry α) (sweeps : Nat) :
    Option (List (Placement α) × α) := do
  let roots ← c.roots? flag?
  let s ← c.search? roots
  let rank ← c.rank? s
  let (rows, _) ← c.order? s rank sweeps
  let widest ← (rows.map List.length).max?
  some (rows.zipIdx.flatMap fun p => geo.placeRow widest p.2 p.1, geo.bottom rows)

theorem max?_length {rows : Rows} (h : rows ≠ []) :
    (rows.map List.length).max? = some (Geometry.widest rows) := by
  cases rows with
  | nil => exact absurd rfl h
  | cons row rows =>
    rw [Geometry.widest, List.map_cons, List.foldl_cons, Nat.zero_max]
    rfl

theorem place?_eq (hc : c.Closed) (hne : c.members ≠ [])
    (hentry : ∀ v ∈ c.members, flag? v = some (c.entries.contains v)) (geo : Geometry α)
    (sweeps : Nat) : c.place? flag? geo sweeps =
      some (geo.placeRows (c.rows sweeps), geo.bottom (c.rows sweeps)) := by
  obtain ⟨slots, horder, -⟩ := order?_eq hc hne sweeps
  have hrows : c.rows sweeps ≠ [] := by
    obtain ⟨v, hv⟩ := List.exists_mem_of_ne_nil _ hne
    obtain ⟨r, hr⟩ := c.exists_row sweeps hv
    exact List.length_pos_iff.mp (Nat.zero_lt_of_lt (Rows.lt_length_of_mem_row hr))
  simp only [place?, roots?_eq hentry, search?_eq hc, rank?_eq hc, horder, max?_length hrows,
    Option.bind_eq_bind, Option.bind_some]
  rfl

end Component

/-- Where every step places one component below those before it, all are stacked. -/
theorem Geometry.foldlM_stack_eq {α : Type} [Coordinate α] (geo : Geometry α)
    {step : List (Placement α) × α → List Nat → Option (List (Placement α) × α)}
    {rows : List Nat → Rows} {classes : List (List Nat)}
    (h : ∀ c ∈ classes, ∀ done, step done c = some
      (done.1 ++ (geo.placeRows (rows c)).map (fun p => { p with y := p.y + done.2 }),
        done.2 + (geo.bottom (rows c) + geo.capabilityGap)))
    (places : List (Placement α)) (offset : α) : ∃ bottom, classes.foldlM step (places, offset) =
      some (places ++ geo.stack offset (classes.map rows), bottom) := by
  induction classes generalizing places offset with
  | nil => exact ⟨offset, by rw [List.map_nil, stack, List.append_nil]; rfl⟩
  | cons c classes ih =>
    obtain ⟨hc, hclasses⟩ := List.forall_mem_cons.mp h
    obtain ⟨bottom, hrest⟩ := ih hclasses
      (places ++ (geo.placeRows (rows c)).map fun p => { p with y := p.y + offset })
      (offset + (geo.bottom (rows c) + geo.capabilityGap))
    refine ⟨bottom, ?_⟩
    rw [List.foldlM_cons, hc, List.map_cons, stack, ← List.append_assoc]
    exact hrest

/-- The vertices with one root each. -/
def groupByRoot (rooted : List (Nat × Nat)) : List (List Nat) :=
  ((rooted.map (·.2)).eraseDups).map fun r => (rooted.filter (·.2 == r)).map (·.1)

/-- Sorts groups by their first members. -/
def sortGroups? (groups : List (List Nat)) : Option (List (List Nat)) := do
  let keyed ← groups.mapM fun members => members.head?.map fun v => (v, members)
  some ((keyed.mergeSort fun a b => a.1 ≤ b.1).map (·.2))

theorem sortGroups?_eq {groups : List (List Nat)} (h : ∀ members ∈ groups, members ≠ []) :
    sortGroups? groups = some (groups.mergeSort fun a b => a.headD 0 ≤ b.headD 0) := by
  have hkeyed : groups.mapM (fun members => members.head?.map fun v => (v, members)) =
      some (groups.map fun members => (members.headD 0, members)) := by
    refine mapM_eq_map fun members hm => ?_
    cases members with
    | nil => exact absurd rfl (h [] hm)
    | cons v members => rfl
  have hsort := List.map_mergeSort (f := fun members : List Nat => (members.headD 0, members))
    (r := fun a b => decide (a.headD 0 ≤ b.headD 0)) (s := fun a b => decide (a.1 ≤ b.1))
    (l := groups) fun _ _ _ _ => rfl
  rw [sortGroups?, hkeyed, Option.bind_eq_bind, Option.bind_some, ← hsort, List.map_map]
  exact congrArg some (List.map_id' _)

namespace Topology

variable {t : Topology} {n : Nat}

/-- The classes, where the roots are searched for in a table of the parents of `n` vertices. -/
def classes? (t : Topology) (n : Nat) : Option (List (List Nat)) := do
  let parents ← t.arcs.foldlM (Forest.joinWithin n) (List.range n)
  let roots ← Forest.rootsWithin n parents t.order
  sortGroups? (groupByRoot (t.order.zip roots))

theorem classes?_eq (harcs : ∀ a ∈ t.arcs, a.source < n ∧ a.target < n)
    (horder : ∀ v ∈ t.order, v < n) : t.classes? n = some t.classes := by
  have hdiscrete : Forest.discrete.table n = List.range n := List.map_id _
  have hrooted : t.order.zip (t.order.map t.forest.root) =
      t.order.map fun v => (v, t.forest.root v) := List.map_prod_left_eq_zip.symm
  have hne : ∀ members ∈ groupByRoot (t.order.map fun v => (v, t.forest.root v)), members ≠ [] :=
    fun members hm => ne_nil_of_mem_classes (t := t) (List.mem_mergeSort.mpr hm)
  have hroots : Forest.rootsWithin n (t.forest.table n) t.order =
      some (t.order.map t.forest.root) := Forest.rootsWithin_eq horder
  have hjoins : t.arcs.foldlM (Forest.joinWithin n) (List.range n) = some (t.forest.table n) :=
    hdiscrete ▸ Forest.foldlM_joinWithin_eq harcs
  simp only [classes?, hjoins, hroots, hrooted, sortGroups?_eq hne, Option.bind_eq_bind,
    Option.bind_some]
  rfl

end Topology

namespace Graph

variable {α : Type} [Coordinate α] {g : Graph}

/-- Adds the places of a component below those before it. -/
def placeBelow? (g : Graph) (geo : Geometry α) (sweeps : Nat) (done : List (Placement α) × α)
    (members : List Nat) : Option (List (Placement α) × α) := do
  let (places, bottom) ← (g.topology.component members).place?
    (fun v => g.nodes[v]?.map Node.isEntry) geo sweeps
  some (done.1 ++ places.map fun p => { p with y := p.y + done.2 },
    done.2 + (bottom + geo.capabilityGap))

def places? (g : Graph) (geo : Geometry α) (sweeps : Nat) : Option (List (Placement α)) := do
  let classes ← g.topology.classes? g.ids.length
  let (places, _) ← classes.foldlM (g.placeBelow? geo sweeps) ([], Coordinate.ofNat 0)
  some places

/-- The layout of a graph of which every node has to have a place. -/
def layout? (g : Graph) (geo : Geometry Float) (sweeps : Nat) : Option Graph := do
  let places ← g.places? geo sweeps
  let nodes ← g.nodes.mapM fun n => (g.placeOf? places n).map fun p => { n with position := p }
  some { g with nodes }

theorem isEntry_eq {v : Nat} (hv : v < g.ids.length) :
    g.nodes[v]?.map Node.isEntry = some (g.topology.entries.contains v) := by
  have hlt : v < g.nodes.length := by simpa [ids] using hv
  rw [List.getElem?_eq_getElem hlt, Option.map_some, Option.some.injEq, Bool.eq_iff_iff,
    List.contains_iff_mem]
  simp only [topology, List.mem_map, List.mem_filter, Prod.exists, List.mem_zipIdx_iff_getElem?]
  constructor
  · intro hentry
    exact ⟨g.nodes[v], v, ⟨List.getElem?_eq_getElem hlt, hentry⟩, rfl⟩
  · rintro ⟨n, i, ⟨hn, hentry⟩, rfl⟩
    rw [List.getElem?_eq_getElem hlt] at hn
    rwa [Option.some.inj hn]

theorem foldlM_placeBelow?_eq (hids : g.ids.Nodup) (geo : Geometry α) (sweeps : Nat)
    {classes : List (List Nat)} (h : ∀ c ∈ classes, c ∈ g.topology.classes)
    (places : List (Placement α)) (offset : α) : ∃ bottom,
      classes.foldlM (g.placeBelow? geo sweeps) (places, offset) = some (places ++
        geo.stack offset (classes.map fun c => (g.topology.component c).rows sweeps), bottom) := by
  refine geo.foldlM_stack_eq (fun c hc done => ?_) places offset
  have hc := h c hc
  have hclosed := closed_of_mem_components hids (List.mem_map_of_mem hc)
  have hentry : ∀ v ∈ c, g.nodes[v]?.map Node.isEntry = some (g.topology.entries.contains v) := by
    intro v hv
    obtain ⟨id, hid⟩ := exists_getElem?_of_mem_classes hids hc hv
    exact isEntry_eq (List.getElem?_eq_some_iff.mp hid).1
  rw [placeBelow?, Component.place?_eq hclosed (Topology.ne_nil_of_mem_classes hc) hentry geo sweeps]
  rfl

theorem places?_eq (hids : g.ids.Nodup) (geo : Geometry α) (sweeps : Nat) :
    g.places? geo sweeps = some (g.topology.place geo sweeps) := by
  have horder : ∀ v ∈ g.topology.order, v < g.ids.length := by
    intro v hv
    rwa [order_eq hids, List.mem_range] at hv
  obtain ⟨bottom, hplaces⟩ := foldlM_placeBelow?_eq hids geo sweeps (fun _ hc => hc)
    [] (Coordinate.ofNat 0)
  rw [places?, Topology.classes?_eq (fun a ha => arc_lt ha) horder, Option.bind_eq_bind,
    Option.bind_some, hplaces, Topology.place, Topology.components, List.map_map]
  rfl

/-- Every node is moved to a place that is found. -/
theorem mapM_placeOf?_eq (g : Graph) (geo : Geometry Float) (sweeps : Nat) :
    g.nodes.mapM (fun n => (g.placeOf? (g.topology.place geo sweeps) n).map
      fun p => { n with position := p }) = some (g.layout geo sweeps).nodes := by
  refine mapM_eq_map fun n hn => ?_
  obtain ⟨a, ha⟩ := exists_place? (List.mem_map_of_mem hn) geo sweeps
  rw [placeOf?_eq, ha]
  rfl

/-- With distinct ids no step of the layout fails. -/
theorem layout?_eq (hids : g.ids.Nodup) (geo : Geometry Float) (sweeps : Nat) :
    g.layout? geo sweeps = some (g.layout geo sweeps) := by
  rw [layout?, places?_eq hids, Option.bind_eq_bind, Option.bind_some, mapM_placeOf?_eq]
  rfl

/-- A graph whose components are its weakly connected parts. -/
structure Partitioned (g : Graph) : Prop where
  /-- No search for a root takes more steps than there are nodes, or meets a vertex without parent. -/
  finds : (g.topology.arcs.foldlM (Forest.joinWithin g.ids.length) (List.range g.ids.length)).bind
    (Forest.rootsWithin g.ids.length · g.topology.order) =
      some (g.topology.order.map g.topology.forest.root)
  /-- Every node is in one group. -/
  parts : g.groups.flatten.Perm g.ids ∧ ∀ group ∈ g.groups, group ≠ []
  joined : ∀ s ∈ g.ids, ∀ t ∈ g.ids,
    (∃ group ∈ g.groups, s ∈ group ∧ t ∈ group) ↔ g.Joined s t
  /-- Groups and their members come in node order, and the first member stands for its group. -/
  ordered : ∀ group ∈ g.groups, group.Sublist g.ids
  heads : (g.groups.filterMap List.head?).Sublist g.ids
  root : ∀ group ∈ g.groups, ∀ s ∈ group, g.root? s = group.head?
  arcs : ∀ c ∈ g.topology.components, ∀ a ∈ c.arcs, a.source ∈ c.members ∧ a.target ∈ c.members
  /-- No lookup of the layout fails. -/
  layout : ∀ geo sweeps, g.layout? geo sweeps = some (g.layout geo sweeps)

theorem partitioned_of_nodup (hids : g.ids.Nodup) : g.Partitioned where
  finds := g.roots_eq hids
  parts := ⟨flatten_groups_perm hids, fun _ hgroup => ne_nil_of_mem_groups hids hgroup⟩
  joined _ hs _ ht := share_group_iff hids hs ht
  ordered _ hgroup := sublist_of_mem_groups hids hgroup
  heads := heads_groups_sublist hids
  root _ hgroup _ hs := root?_eq_head? hids hgroup hs
  arcs _ hc _ ha := arc_ends_mem hids hc ha
  layout geo sweeps := layout?_eq hids geo sweeps

theorem partitioned_of_nodup_scattered : scattered.ids.Nodup ∧ scattered.Partitioned := by
  have hids : scattered.ids.Nodup := by decide
  exact ⟨hids, partitioned_of_nodup hids⟩

end Graph

end ScriptFlow
