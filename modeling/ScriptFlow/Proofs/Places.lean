import ScriptFlow.Layout.Apply
import ScriptFlow.Proofs.Partition
import ScriptFlow.Proofs.Rows
import Mathlib.Algebra.Order.Field.Rat
import Mathlib.Tactic.Linarith
import Mathlib.Tactic.Ring

/-! Where the nodes of a flow stand. A node is placed at one slot of one row of one component; measured
exactly, a row ends above the next one and a component above the next one. -/

namespace ScriptFlow

namespace Geometry

variable {α : Type} [Coordinate α] {geo : Geometry α} {t : Topology} {p : Placement α} {sweeps : Nat}

open Coordinate

/-- A place tells the component, the row and the slot of its vertex. -/
theorem exists_slot_of_mem_place (h : p ∈ t.place geo sweeps) :
    ∃ i members, t.classes[i]? = some members ∧ ∃ r k,
      (((t.component members).rows sweeps).row r)[k]? = some p.vertex ∧
        p.x = geo.rowStart (widest ((t.component members).rows sweeps))
          (((t.component members).rows sweeps).row r).length + ofNat k * geo.stepX ∧
        p.y = geo.margin + ofNat r * geo.stepY +
          geo.startAt (ofNat 0) (t.components.map (·.rows sweeps)) i := by
  obtain ⟨i, rows, hi, q, hq, rfl⟩ := geo.mem_stack.mp h
  obtain ⟨r, k, hk, hx, hy⟩ := geo.mem_placeRows.mp hq
  rw [Topology.components, List.map_map, List.getElem?_map] at hi
  obtain ⟨members, hm, rfl⟩ := Option.map_eq_some_iff.mp hi
  exact ⟨i, members, hm, r, k, hk, hx, by simp only [hy]⟩

end Geometry

/-- Every vertex is placed once, so it does not matter which of its places is looked up. -/
theorem Topology.nodup_place {α : Type} [Coordinate α] (t : Topology) (geo : Geometry α)
    (sweeps : Nat) : ((t.place geo sweeps).map (·.vertex)).Nodup := by
  rw [place, geo.vertices_stack, components, List.map_map, List.map_map, List.nodup_flatten]
  refine ⟨fun vs hvs => ?_, List.pairwise_map.mpr ?_⟩
  · obtain ⟨members, -, rfl⟩ := List.mem_map.mp hvs
    exact (t.component members).nodup_flatten_rows sweeps
  · refine t.nodup_classes.pairwise_of_forall_ne fun c hc d hd hne v hvc hvd => hne ?_
    exact classes_eq hc hd (Component.mem_of_mem_flatten_rows hvc)
      (Component.mem_of_mem_flatten_rows hvd)

namespace Graph

variable {α : Type} [Coordinate α] {geo : Geometry α} {g : Graph} {s : String} {sweeps : Nat}
  {i r k v : Nat} {c : Component}

open Coordinate

/-- The place that a node is given. -/
def place? {α : Type} [Coordinate α] (g : Graph) (geo : Geometry α) (sweeps : Nat) (id : String) :
    Option (Placement α) := do
  let v ← lastIndex? g.ids id
  (g.topology.place geo sweeps).find? (·.vertex == v)

/-- Every node is given a place. -/
theorem exists_place? {id : String} (h : id ∈ g.ids) (geo : Geometry α) (sweeps : Nat) :
    ∃ a, g.place? geo sweeps id = some a := by
  obtain ⟨v, hv⟩ := exists_lastIndex? h
  have horder : v ∈ g.topology.order := List.mem_filterMap.mpr ⟨id, h, hv⟩
  obtain ⟨p, hp, hvertex⟩ := geo.exists_placement horder sweeps
  have hfound : ((g.topology.place geo sweeps).find? (·.vertex == v)).isSome :=
    List.find?_isSome.mpr ⟨p, hp, beq_iff_eq.mpr hvertex⟩
  rw [place?, hv]
  exact Option.isSome_iff_exists.mp hfound

theorem placeOf?_eq (g : Graph) (geo : Geometry Float) (sweeps : Nat) (n : Node) :
    g.placeOf? (g.topology.place geo sweeps) n =
      (g.place? geo sweeps n.id).map fun a => ⟨a.x, a.y⟩ := by
  unfold placeOf? place?
  cases lastIndex? g.ids n.id with
  | none => rfl
  | some v =>
    simp only [Option.bind_eq_bind, Option.bind_some]
    cases (g.topology.place geo sweeps).find? (·.vertex == v) <;> rfl

/-- A node stands where the slot of its vertex is. -/
theorem exists_place?_at (geo : Geometry α) (hids : g.ids.Nodup)
    (hc : g.topology.components[i]? = some c)
    (hv : ((c.rows sweeps).row r)[k]? = some v) (hs : g.ids[v]? = some s) :
    ∃ a, g.place? geo sweeps s = some a ∧
      a.x = geo.rowStart (Geometry.widest (c.rows sweeps)) ((c.rows sweeps).row r).length +
        ofNat k * geo.stepX ∧
      a.y = geo.margin + ofNat r * geo.stepY +
        geo.startAt (ofNat 0) (g.topology.components.map (·.rows sweeps)) i := by
  obtain ⟨a, ha⟩ := exists_place? (List.mem_of_getElem? hs) geo sweeps
  refine ⟨a, ha, ?_⟩
  rw [place?, lastIndex?_eq_some hids hs] at ha
  have hvertex : a.vertex = v := by simpa using List.find?_some ha
  obtain ⟨j, members', hj, r', k', hk', hx, hy⟩ :=
    Geometry.exists_slot_of_mem_place (List.mem_of_find?_eq_some ha)
  rw [Topology.components, List.getElem?_map] at hc
  obtain ⟨members, hi, rfl⟩ := Option.map_eq_some_iff.mp hc
  rw [hvertex] at hk'
  -- the vertex is in one class, row and slot only
  have hmem := Component.mem_of_mem_row (List.mem_of_getElem? hv)
  have hmem' := Component.mem_of_mem_row (List.mem_of_getElem? hk')
  obtain rfl := Topology.classes_eq (List.mem_of_getElem? hj) (List.mem_of_getElem? hi) hmem' hmem
  have hij : j = i := (List.getElem?_inj (List.getElem?_eq_some_iff.mp hj).1
    g.topology.nodup_classes).mp (hj.trans hi.symm)
  have hnodup := nodup_of_mem_classes hids (List.mem_of_getElem? hi)
  have hslot : (r', k') = (r, k) :=
    (Component.existsUnique_slot (c := g.topology.component members') hnodup sweeps hmem).unique
      hk' hv
  obtain ⟨rfl, rfl⟩ := Prod.mk.inj hslot
  rw [hij] at hy
  exact ⟨hx, hy⟩

/-- Laying out draws every node at its place. -/
theorem exists_place?_of_layout {f : Geometry Float} {n : Node} (h : n ∈ (g.layout f sweeps).nodes) :
    ∃ a, g.place? f sweeps n.id = some a ∧ n.position = ⟨a.x, a.y⟩ := by
  obtain ⟨m, hm, rfl⟩ := List.mem_map.mp h
  obtain ⟨a, ha⟩ := exists_place? (List.mem_map_of_mem hm) f sweeps
  refine ⟨a, ha, ?_⟩
  rw [placeOf?_eq, ha]
  rfl

end Graph

instance : Coordinate ℚ where
  ofNat n := n

namespace Geometry

/-- Sizes and distances of a layout, none below zero and nodes of some height. -/
structure Fair (geo : Geometry ℚ) : Prop where
  nodeWidth : 0 ≤ geo.nodeWidth
  nodeHeight : 0 < geo.nodeHeight
  horizontalSpacing : 0 ≤ geo.horizontalSpacing
  verticalSpacing : 0 ≤ geo.verticalSpacing
  margin : 0 ≤ geo.margin
  capabilityGap : 0 ≤ geo.capabilityGap

/-- Enough for nodes to stay apart: the gap may be negative if the margin makes up for it. -/
structure Spaced (geo : Geometry ℚ) : Prop where
  nodeWidth : 0 ≤ geo.nodeWidth
  nodeHeight : 0 ≤ geo.nodeHeight
  horizontalSpacing : 0 ≤ geo.horizontalSpacing
  verticalSpacing : 0 ≤ geo.verticalSpacing
  gap : 0 ≤ geo.margin + geo.capabilityGap

theorem Fair.spaced {geo : Geometry ℚ} (h : geo.Fair) : geo.Spaced :=
  ⟨h.nodeWidth, h.nodeHeight.le, h.horizontalSpacing, h.verticalSpacing,
    add_nonneg h.margin h.capabilityGap⟩

variable {geo : Geometry ℚ} {stacked : List Rows} {rows : Rows} {i j : Nat} {offset : ℚ}

/-- The y-coordinate of a row in a component that starts at the top. -/
def rowTop (geo : Geometry ℚ) (r : Nat) : ℚ := geo.margin + r * (geo.nodeHeight + geo.verticalSpacing)

theorem bottom_eq (rows : Rows) :
    geo.bottom rows = geo.rowTop (rows.length - 1) + geo.nodeHeight := rfl

theorem Spaced.rowTop_mono (h : geo.Spaced) {r r' : Nat} (hr : r ≤ r') :
    geo.rowTop r ≤ geo.rowTop r' := by
  have hr' : (r : ℚ) ≤ r' := by exact_mod_cast hr
  have hstep : 0 ≤ geo.nodeHeight + geo.verticalSpacing := add_nonneg h.nodeHeight h.verticalSpacing
  unfold rowTop
  linarith [mul_le_mul_of_nonneg_right hr' hstep]

theorem Spaced.rowTop_succ (h : geo.Spaced) {r r' : Nat} (hr : r + 1 ≤ r') :
    geo.rowTop r + geo.nodeHeight + geo.verticalSpacing ≤ geo.rowTop r' := by
  have hmono := h.rowTop_mono hr
  have hsucc : geo.rowTop (r + 1) = geo.rowTop r + geo.nodeHeight + geo.verticalSpacing := by
    unfold rowTop
    push_cast
    ring
  rwa [hsucc] at hmono

theorem Spaced.rowTop_le_bottom (h : geo.Spaced) {r : Nat} (hr : r < rows.length) :
    geo.rowTop r + geo.nodeHeight ≤ geo.bottom rows := by
  have := h.rowTop_mono (Nat.le_sub_one_of_lt hr)
  rw [bottom_eq]
  linarith

theorem Spaced.margin_le_rowTop (h : geo.Spaced) (r : Nat) : geo.margin ≤ geo.rowTop r := by
  have := h.rowTop_mono (Nat.zero_le r)
  simpa [rowTop] using this

theorem Spaced.startAt_ge (h : geo.Spaced) : offset ≤ geo.startAt offset stacked i := by
  induction stacked generalizing offset i with
  | nil => simp [startAt]
  | cons first rest ih =>
    cases i with
    | zero => simp [startAt]
    | succ i =>
      rw [startAt]
      refine le_trans ?_ ih
      have h1 := h.margin_le_rowTop (first.length - 1)
      have h2 := h.nodeHeight
      have h3 := h.gap
      rw [bottom_eq]
      linarith

/-- A component starts below the end of every earlier one. -/
theorem Spaced.startAt_lt (h : geo.Spaced) (offset : ℚ) (hij : i < j) (hi : stacked[i]? = some rows)
    (hj : j < stacked.length) :
    geo.startAt offset stacked i + (geo.bottom rows + geo.capabilityGap) ≤
      geo.startAt offset stacked j := by
  induction stacked generalizing offset i j with
  | nil => simp at hj
  | cons first rest ih =>
    cases j with
    | zero => omega
    | succ j =>
      cases i with
      | zero =>
        obtain rfl : first = rows := Option.some.inj hi
        exact h.startAt_ge
      | succ i => exact ih _ (by omega) hi (by simpa using hj)

end Geometry

end ScriptFlow
