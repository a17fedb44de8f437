import ScriptFlow.Proofs.Layers
import ScriptFlow.Proofs.Spacing
import ScriptFlow.Proofs.Whole
import ScriptFlow.Session.Basic
import Mathlib.Algebra.Order.BigOperators.Group.List

/-! The coordinates of a layout with the standard distances. They are whole numbers, half of the
room beside a narrow row included, so that in a flow of at most `2 ^ 40` nodes they are exact and
finite: a row is no longer, and there are no more rows, than there are nodes. -/

namespace ScriptFlow

/-- Every row has a member: where one has a rank, every smaller rank is that of another. -/
theorem Component.ne_nil_of_mem_rows {c : Component} (hc : c.Closed) {sweeps : Nat}
    {row : List Nat} (h : row ∈ c.rows sweeps) : row ≠ [] := by
  obtain ⟨forest, hsearched⟩ := hc.exists_searched
  obtain ⟨-, hnodup, -, -⟩ := c.search_spec
  obtain ⟨hsound, -⟩ :=
    run_initialRanking hc.distinct hnodup hc.dag_ends (hsearched.wellFounded hc)
  have hranks : c.ranks c.search = c.search.found.map fun v =>
    (v, ((c.initialRanking c.search).run (keptTargets c.search)).rank v) := rfl
  generalize (c.initialRanking c.search).run (keptTargets c.search) = ranking at hsound hranks
  obtain ⟨r, hr, rfl⟩ := List.mem_iff_getElem.mp h
  have hdepth : (c.rows sweeps).length = ((c.ranks c.search).map (·.2 + 1)).foldl max 0 := by
    rw [Component.rows, (Rows.same_sweeps _ _ _).length, Rows.ofRanks, List.length_map,
      List.length_range]
  obtain ⟨v, hv, hle⟩ : ∃ v ∈ c.members, r ≤ ranking.rank v := by
    by_contra hnone
    refine absurd hr (Nat.not_lt.mpr (hdepth ▸ Rows.foldl_max_le.mpr ⟨Nat.zero_le _, ?_⟩))
    intro m hm
    rw [hranks, List.map_map] at hm
    obtain ⟨v, hv, rfl⟩ := List.mem_map.mp hm
    exact Nat.lt_of_not_le fun hle => hnone ⟨v, mem_found.mp hv, hle⟩
  obtain ⟨u, hu, hrank⟩ :=
    hsound.exists_mem_rank_eq (fun a ha => (hc.dag_ends a ha).1) hv hle
  have hmem : u ∈ (c.rows sweeps).row r := (row_rows sweeps hranks r).mem_iff.mpr
    (List.mem_filter.mpr ⟨mem_found.mpr hu, beq_iff_eq.mpr hrank⟩)
  rw [Rows.row, List.getElem?_eq_getElem hr, Option.getD_some] at hmem
  exact List.ne_nil_of_mem hmem

theorem Component.length_flatten_rows_le (c : Component) (sweeps : Nat) :
    (c.rows sweeps).flatten.length ≤ c.members.length :=
  (List.subperm_of_subset (c.nodup_flatten_rows sweeps)
    fun _ h => Component.mem_of_mem_flatten_rows h).length_le

namespace Rows

variable {rows : Rows}

theorem length_le_flatten (h : ∀ row ∈ rows, row ≠ []) : rows.length ≤ rows.flatten.length := by
  induction rows with
  | nil => exact Nat.le_refl _
  | cons row rows ih =>
    obtain ⟨hrow, hrows⟩ := List.forall_mem_cons.mp h
    have hpos := List.length_pos_iff.mpr hrow
    have hle := ih hrows
    rw [List.length_cons, List.flatten_cons, List.length_append]
    omega

theorem widest_le_flatten (rows : Rows) : Geometry.widest rows ≤ rows.flatten.length := by
  refine foldl_max_le.mpr ⟨Nat.zero_le _, fun m hm => ?_⟩
  obtain ⟨row, hrow, rfl⟩ := List.mem_map.mp hm
  exact (List.sublist_flatten_of_mem hrow).length_le

end Rows

namespace Geometry

variable {rows : Rows} {stacked : List Rows} {w c k r i n : Nat}

open Coordinate

/-- The distances that scripts are loaded with. -/
abbrev distances : Geometry Float := Settings.standard.geometry

theorem isWhole_stepX : IsWhole distances.stepX 360 :=
  (IsWhole.ofNat (n := 280) (by decide)).add (.ofNat (n := 80) (by decide)) (by decide)

theorem isWhole_stepY : IsWhole distances.stepY 310 :=
  (IsWhole.ofNat (n := 160) (by decide)).add (.ofNat (n := 150) (by decide)) (by decide)

theorem isWhole_rowWidth (hc : 1 ≤ c) (hsize : c ≤ 2 ^ 40) :
    IsWhole (distances.rowWidth c) (c * 360 - 80) :=
  ((IsWhole.ofNat (by omega)).mul isWhole_stepX (by omega)).sub (.ofNat (n := 80) (by decide))
    (by omega) (by omega)

/-- A step is even, so half of the room beside a narrow row is whole. -/
theorem isWhole_rowStart (hc : 1 ≤ c) (hcw : c ≤ w) (hsize : w ≤ 2 ^ 40) :
    IsWhole (distances.rowStart w c) (50 + (w - c) * 180) := by
  have hroom := (isWhole_rowWidth (c := w) (by omega) hsize).sub
    (isWhole_rowWidth hc (by omega)) (by omega) (by omega)
  have heven : w * 360 - 80 - (c * 360 - 80) = (w - c) * 180 * 2 := by omega
  rw [heven] at hroom
  exact (IsWhole.ofNat (n := 50) (by decide)).add
    (hroom.div (.ofNat (n := 2) (by decide)) (by decide) (by omega)) (by omega)

theorem isWhole_slot (hk : k < c) (hcw : c ≤ w) (hsize : w ≤ 2 ^ 40) :
    IsWhole (distances.rowStart w c + ofNat k * distances.stepX) (50 + (w - c) * 180 + k * 360) :=
  (isWhole_rowStart (by omega) hcw hsize).add
    ((IsWhole.ofNat (by omega)).mul isWhole_stepX (by omega)) (by omega)

theorem isWhole_rowTop (hr : r ≤ 2 ^ 40) :
    IsWhole (distances.margin + ofNat r * distances.stepY) (50 + r * 310) :=
  (IsWhole.ofNat (n := 50) (by decide)).add
    ((IsWhole.ofNat (by omega)).mul isWhole_stepY (by omega)) (by omega)

/-- A component takes as much room as its rows: its margin and the gap below it make up for the last
distance between rows. -/
theorem isWhole_below (hrows : 1 ≤ rows.length) (hsize : rows.length ≤ 2 ^ 40) :
    IsWhole (distances.bottom rows + distances.capabilityGap) (rows.length * 310) := by
  have hbottom := ((isWhole_rowTop (r := rows.length - 1) (by omega)).add
    (.ofNat (n := 160) (by decide)) (by omega)).add (.ofNat (n := 100) (by decide)) (by omega)
  have hroom : 50 + (rows.length - 1) * 310 + 160 + 100 = rows.length * 310 := by omega
  rwa [hroom] at hbottom

/-- A component starts below all rows of the earlier ones. -/
theorem exists_isWhole_startAt {offset : Float} (ho : IsWhole offset (n * 310))
    (hne : ∀ rows ∈ stacked, rows ≠ []) (hsize : n + (stacked.map List.length).sum ≤ 2 ^ 40)
    (hi : stacked[i]? = some rows) :
    ∃ m, IsWhole (distances.startAt offset stacked i) (m * 310) ∧
      m + rows.length ≤ n + (stacked.map List.length).sum := by
  induction stacked generalizing offset n i with
  | nil => cases hi
  | cons first rest ih =>
    rw [List.map_cons, List.sum_cons] at hsize ⊢
    cases i with
    | zero =>
      obtain rfl : first = rows := Option.some.inj hi
      exact ⟨n, ho, by omega⟩
    | succ i =>
      obtain ⟨hfirst, hrest⟩ := List.forall_mem_cons.mp hne
      have hbelow := isWhole_below (List.length_pos_iff.mpr hfirst) (by omega)
      have hnext := ho.add hbelow (by omega)
      rw [← Nat.add_mul] at hnext
      obtain ⟨m, hm, hle⟩ := ih hnext hrest (by omega) hi
      exact ⟨m, hm, by omega⟩

end Geometry

namespace Graph

variable {g : Graph} {members : List Nat} {sweeps : Nat}

theorem length_le_of_mem_classes (hids : g.ids.Nodup) (h : members ∈ g.topology.classes) :
    members.length ≤ g.nodes.length := by
  have hle := (Topology.sublist_of_mem_classes h).length_le
  rwa [order_eq hids, List.length_range, ids, List.length_map] at hle

theorem rows_ne_nil_of_mem_classes (h : members ∈ g.topology.classes) (sweeps : Nat) :
    (g.topology.component members).rows sweeps ≠ [] := by
  obtain ⟨v, hv⟩ := List.exists_mem_of_ne_nil _ (Topology.ne_nil_of_mem_classes h)
  obtain ⟨r, hr⟩ := (g.topology.component members).exists_row sweeps hv
  exact List.ne_nil_of_length_pos (Nat.zero_lt_of_lt (Rows.lt_length_of_mem_row hr))

/-- There are no more rows in all components than nodes. -/
theorem sum_rows_le (hids : g.ids.Nodup) (sweeps : Nat) :
    ((g.topology.components.map (·.rows sweeps)).map List.length).sum ≤ g.nodes.length := by
  have hmembers : (g.topology.classes.map List.length).sum = g.nodes.length := by
    have horder : g.topology.order = List.range g.nodes.length := by
      rw [order_eq hids, ids, List.length_map]
    have hperm := Topology.flatten_classes_perm (t := g.topology) (horder ▸ List.nodup_range)
    rw [← List.length_flatten, hperm.length_eq, horder, List.length_range]
  rw [← hmembers, Topology.components, List.map_map, List.map_map]
  refine List.sum_le_sum fun members hmem => ?_
  have hclosed := closed_of_mem_components hids (List.mem_map_of_mem hmem)
  exact (Rows.length_le_flatten fun row => Component.ne_nil_of_mem_rows hclosed).trans
    ((g.topology.component members).length_flatten_rows_le sweeps)

theorem exists_isWhole_place (hids : g.ids.Nodup) (hsize : g.nodes.length ≤ 2 ^ 40)
    {p : Placement Float} (h : p ∈ g.topology.place Geometry.distances sweeps) :
    ∃ x y, IsWhole p.x x ∧ IsWhole p.y y := by
  obtain ⟨i, members, hi, r, k, hk, hx, hy⟩ := Geometry.exists_slot_of_mem_place h
  have hmem := List.mem_of_getElem? hi
  have hsum := sum_rows_le hids sweeps
  have hrows : (g.topology.components.map (·.rows sweeps))[i]? =
      some ((g.topology.component members).rows sweeps) := by
    rw [List.getElem?_map, Topology.components, List.getElem?_map, hi]
    rfl
  have hne : ∀ rows ∈ g.topology.components.map (·.rows sweeps), rows ≠ [] := by
    intro rows hrows
    obtain ⟨c, hc, rfl⟩ := List.mem_map.mp hrows
    obtain ⟨members', hmem', rfl⟩ := List.mem_map.mp hc
    exact rows_ne_nil_of_mem_classes hmem' sweeps
  have hzero : IsWhole (Coordinate.ofNat 0) (0 * 310) := IsWhole.ofNat (by decide)
  obtain ⟨m, hm, hle⟩ := Geometry.exists_isWhole_startAt hzero hne (by omega) hrows
  have hr := Rows.lt_length_of_mem_row (List.mem_of_getElem? hk)
  have hwidest : Geometry.widest ((g.topology.component members).rows sweeps) ≤ 2 ^ 40 :=
    (Rows.widest_le_flatten _).trans
      (((g.topology.component members).length_flatten_rows_le sweeps).trans
        ((length_le_of_mem_classes hids hmem).trans hsize))
  exact ⟨_, _, hx ▸ Geometry.isWhole_slot (List.getElem?_eq_some_iff.mp hk).1
    (Geometry.length_row_le_widest _ r) hwidest,
    hy ▸ (Geometry.isWhole_rowTop (by omega)).add hm (by omega)⟩

/-- A flow of at most `2 ^ 40` nodes is laid out with coordinates that are natural numbers. -/
theorem exists_isWhole_layout (hids : g.ids.Nodup) (hsize : g.nodes.length ≤ 2 ^ 40) {n : Node}
    (hn : n ∈ (g.layout Settings.standard.geometry sweeps).nodes) :
    ∃ x y, IsWhole n.position.x x ∧ IsWhole n.position.y y := by
  obtain ⟨a, ha, hposition⟩ := exists_place?_of_layout hn
  obtain ⟨v, -, hfind⟩ := Option.bind_eq_some_iff.mp ha
  rw [hposition]
  exact exists_isWhole_place hids hsize (List.mem_of_find?_eq_some hfind)

end Graph

end ScriptFlow
