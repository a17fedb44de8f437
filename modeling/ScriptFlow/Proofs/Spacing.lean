import ScriptFlow.Proofs.Places
import ScriptFlow.Proofs.Slots

/-! Nodes keep their distance, whatever the edges are and however often the rows are sorted. A node
stands at one slot of one row of one component; slots of a row, rows of a component and components are
far enough from each other. -/

namespace ScriptFlow

namespace Geometry

variable {geo : Geometry ℚ} {rows : Rows} {r r' k k' : Nat}

theorem length_row_le_widest (rows : Rows) (r : Nat) : (rows.row r).length ≤ widest rows := by
  rw [Rows.row]
  cases hr : rows[r]? with
  | none => exact Nat.zero_le _
  | some row =>
    have hmem : row.length ∈ rows.map List.length := List.mem_map_of_mem (List.mem_of_getElem? hr)
    exact (Rows.foldl_max_le.mp (Nat.le_refl _)).2 _ hmem

/-- The x-coordinate of a slot in a row of so many nodes. -/
def slotLeft (geo : Geometry ℚ) (widest count k : Nat) : ℚ :=
  geo.rowStart widest count + k * (geo.nodeWidth + geo.horizontalSpacing)

theorem rowWidth_eq (geo : Geometry ℚ) (count : Nat) : geo.rowWidth count =
    count * (geo.nodeWidth + geo.horizontalSpacing) - geo.horizontalSpacing := rfl

theorem rowStart_eq (geo : Geometry ℚ) (widest count : Nat) : geo.rowStart widest count =
    geo.margin + (geo.rowWidth widest - geo.rowWidth count) / 2 := rfl

theorem Spaced.slotLeft_succ (h : geo.Spaced) (widest count : Nat) (hk : k + 1 ≤ k') :
    geo.slotLeft widest count k + geo.nodeWidth + geo.horizontalSpacing ≤
      geo.slotLeft widest count k' := by
  have hk' : (k : ℚ) + 1 ≤ k' := by exact_mod_cast hk
  have hstep : 0 ≤ geo.nodeWidth + geo.horizontalSpacing :=
    add_nonneg h.nodeWidth h.horizontalSpacing
  unfold slotLeft
  linarith [mul_le_mul_of_nonneg_right hk' hstep]

theorem Spaced.margin_le_slotLeft (h : geo.Spaced) {widest count : Nat} (hcount : count ≤ widest)
    (k : Nat) : geo.margin ≤ geo.slotLeft widest count k := by
  have hstep : 0 ≤ geo.nodeWidth + geo.horizontalSpacing :=
    add_nonneg h.nodeWidth h.horizontalSpacing
  have hcount' : (count : ℚ) ≤ widest := by exact_mod_cast hcount
  have hwidth : geo.rowWidth count ≤ geo.rowWidth widest := by
    rw [rowWidth_eq, rowWidth_eq]
    linarith [mul_le_mul_of_nonneg_right hcount' hstep]
  have hslot : 0 ≤ (k : ℚ) * (geo.nodeWidth + geo.horizontalSpacing) :=
    mul_nonneg (Nat.cast_nonneg k) hstep
  rw [slotLeft, rowStart_eq]
  linarith

/-- The middle between the left end of a row and its right end is the same for all rows. -/
theorem axis_eq (geo : Geometry ℚ) (widest count : Nat) :
    (geo.slotLeft widest (count + 1) 0 + (geo.slotLeft widest (count + 1) count + geo.nodeWidth)) / 2 =
      geo.margin + geo.rowWidth widest / 2 := by
  simp only [slotLeft, rowStart_eq, rowWidth_eq]
  push_cast
  ring

end Geometry

/-- A drawing without overlaps. -/
structure Graph.Spread (g : Graph) (geo : Geometry ℚ) (sweeps : Nat) : Prop where
  apart : ∀ s ∈ g.ids, ∀ t ∈ g.ids, s ≠ t → ∃ a b, g.place? geo sweeps s = some a ∧
    g.place? geo sweeps t = some b ∧
      ¬ (|a.x - b.x| < geo.nodeWidth ∧ |a.y - b.y| < geo.nodeHeight)
  inside : ∀ s ∈ g.ids, ∃ a, g.place? geo sweeps s = some a ∧ geo.margin ≤ a.x
  /-- The rows of a component hold each member at one slot, and nothing else. -/
  slot : ∀ c ∈ g.topology.components, ∀ v ∈ c.members,
    ∃! p : Nat × Nat, ((c.rows sweeps).row p.1)[p.2]? = some v
  members : ∀ c ∈ g.topology.components, ∀ r, (c.rows sweeps).row r ⊆ c.members
  /-- The slots of a row count from zero. -/
  slots : ∀ c ∈ g.topology.components, ∀ r,
    ((c.rows sweeps).row r).map (c.rows sweeps).slot = List.range ((c.rows sweeps).row r).length
  /-- The table that is changed while the rows are sorted tells these slots. -/
  told : ∀ c ∈ g.topology.components, ∃ rank slots, c.rank? (c.search.trace c.members) = some rank ∧
    c.order? (c.search.trace c.members) rank sweeps = some (c.rows sweeps, slots) ∧
      (c.rows sweeps).Told slots
  neighbours : ∀ c ∈ g.topology.components, ∀ r k u v,
    ((c.rows sweeps).row r)[k]? = some u → ((c.rows sweeps).row r)[k + 1]? = some v →
      ∃ s t a b, g.ids[u]? = some s ∧ g.ids[v]? = some t ∧ g.place? geo sweeps s = some a ∧
        g.place? geo sweeps t = some b ∧ b.y = a.y ∧
          b.x = a.x + geo.nodeWidth + geo.horizontalSpacing
  /-- The ends of all rows of a component are equally far from one axis. -/
  centred : ∀ c ∈ g.topology.components, ∃ axis, ∀ r u v,
    ((c.rows sweeps).row r).head? = some u → ((c.rows sweeps).row r).getLast? = some v →
      ∃ s t a b, g.ids[u]? = some s ∧ g.ids[v]? = some t ∧ g.place? geo sweeps s = some a ∧
        g.place? geo sweeps t = some b ∧ (a.x + (b.x + geo.nodeWidth)) / 2 = axis
  /-- The nodes are drawn at their places, measured in floating-point numbers. -/
  drawn : ∀ (f : Geometry Float), ∀ n ∈ (g.layout f sweeps).nodes, ∃ a,
    g.place? f sweeps n.id = some a ∧ n.position = ⟨a.x, a.y⟩

namespace Graph

variable {geo : Geometry ℚ} {g : Graph} {s t : String} {sweeps : Nat}
  {i j r r' k k' u v : Nat} {c d : Component}

/-- The place of a vertex, measured exactly. -/
theorem exists_place?_exact (geo : Geometry ℚ) (hids : g.ids.Nodup)
    (hc : g.topology.components[i]? = some c)
    (hv : ((c.rows sweeps).row r)[k]? = some v) (hs : g.ids[v]? = some s) :
    ∃ a, g.place? geo sweeps s = some a ∧
      a.x = geo.slotLeft (Geometry.widest (c.rows sweeps)) ((c.rows sweeps).row r).length k ∧
      a.y = geo.rowTop r +
        geo.startAt (Coordinate.ofNat 0) (g.topology.components.map (·.rows sweeps)) i :=
  exists_place?_at geo hids hc hv hs

/-- Every node has a slot. -/
theorem exists_slot (hids : g.ids.Nodup) (hs : g.ids[v]? = some s) (sweeps : Nat) :
    ∃ (i : Nat) (c : Component) (r k : Nat), g.topology.components[i]? = some c ∧
      ((c.rows sweeps).row r)[k]? = some v := by
  obtain ⟨members, hm, hv⟩ := g.topology.exists_class (mem_order_of_getElem? hids hs)
  obtain ⟨i, hi⟩ := List.mem_iff_getElem?.mp (List.mem_map_of_mem hm)
  obtain ⟨r, hr⟩ := (g.topology.component members).exists_row sweeps hv
  obtain ⟨k, hk⟩ := List.mem_iff_getElem?.mp hr
  exact ⟨i, _, r, k, hi, hk⟩

theorem exists_id_of_mem_row (hids : g.ids.Nodup) (hc : c ∈ g.topology.components)
    (hv : v ∈ (c.rows sweeps).row r) : ∃ s, g.ids[v]? = some s := by
  obtain ⟨members, hm, rfl⟩ := List.mem_map.mp hc
  exact exists_getElem?_of_mem_classes hids hm (Component.mem_of_mem_row hv)

theorem ne_nil_of_mem_components (hc : c ∈ g.topology.components) : c.members ≠ [] := by
  obtain ⟨members, hm, rfl⟩ := List.mem_map.mp hc
  exact Topology.ne_nil_of_mem_classes hm

/-- A later component is drawn below, and so is a lower row. -/
theorem below_of_lt (hgeo : geo.Spaced) (hc : g.topology.components[i]? = some c)
    (hd : g.topology.components[j]? = some d) (hu : u ∈ (c.rows sweeps).row r)
    (hlt : i < j ∨ i = j ∧ r < r') :
    geo.rowTop r + geo.startAt (Coordinate.ofNat 0) (g.topology.components.map (·.rows sweeps)) i +
        geo.nodeHeight ≤
      geo.rowTop r' +
        geo.startAt (Coordinate.ofNat 0) (g.topology.components.map (·.rows sweeps)) j := by
  rcases hlt with hij | ⟨rfl, hr⟩
  · have hrows : (g.topology.components.map (·.rows sweeps))[i]? = some (c.rows sweeps) := by
      rw [List.getElem?_map, hc, Option.map_some]
    have hj : j < (g.topology.components.map (·.rows sweeps)).length := by
      rw [List.length_map]
      exact (List.getElem?_eq_some_iff.mp hd).1
    have hstarts := hgeo.startAt_lt (Coordinate.ofNat 0) hij hrows hj
    have hends := hgeo.rowTop_le_bottom (Rows.lt_length_of_mem_row hu)
    have htop := hgeo.margin_le_rowTop r'
    have hgap := hgeo.gap
    linarith
  · have hrow := hgeo.rowTop_succ hr
    have hspacing := hgeo.verticalSpacing
    linarith

theorem not_overlap (hids : g.ids.Nodup) (hgeo : geo.Spaced) (sweeps : Nat) (hs : s ∈ g.ids)
    (ht : t ∈ g.ids) (hne : s ≠ t) : ∃ a b, g.place? geo sweeps s = some a ∧
      g.place? geo sweeps t = some b ∧
        ¬ (|a.x - b.x| < geo.nodeWidth ∧ |a.y - b.y| < geo.nodeHeight) := by
  obtain ⟨u, hu⟩ := List.mem_iff_getElem?.mp hs
  obtain ⟨v, hv⟩ := List.mem_iff_getElem?.mp ht
  obtain ⟨i, c, r, k, hc, hur⟩ := exists_slot hids hu sweeps
  obtain ⟨j, d, r', k', hd, hvr⟩ := exists_slot hids hv sweeps
  obtain ⟨a, ha, hax, hay⟩ := exists_place?_exact geo hids hc hur hu
  obtain ⟨b, hb, hbx, hby⟩ := exists_place?_exact geo hids hd hvr hv
  refine ⟨a, b, ha, hb, ?_⟩
  rw [abs_lt, abs_lt]
  rintro ⟨⟨hx, hx'⟩, hy, hy'⟩
  have habove : ¬ (i < j ∨ i = j ∧ r < r') := by
    intro hlt
    have := below_of_lt hgeo hc hd (List.mem_of_getElem? hur) hlt
    linarith
  have hbelow : ¬ (j < i ∨ j = i ∧ r' < r) := by
    intro hlt
    have := below_of_lt hgeo hd hc (List.mem_of_getElem? hvr) hlt
    linarith
  obtain rfl : i = j := by omega
  obtain rfl : r = r' := by omega
  obtain rfl : c = d := Option.some.inj (hc.symm.trans hd)
  -- in one row the slots differ, since the vertices do
  have hkk' : k ≠ k' := by
    rintro rfl
    obtain rfl : u = v := Option.some.inj (hur.symm.trans hvr)
    exact hne (Option.some.inj (hu.symm.trans hv))
  have hspacing := hgeo.horizontalSpacing
  rcases Nat.lt_or_gt_of_ne hkk' with hlt | hlt
  · have := hgeo.slotLeft_succ (Geometry.widest (c.rows sweeps)) ((c.rows sweeps).row r).length hlt
    linarith
  · have := hgeo.slotLeft_succ (Geometry.widest (c.rows sweeps)) ((c.rows sweeps).row r).length hlt
    linarith

theorem neighbours_spec (hids : g.ids.Nodup) (geo : Geometry ℚ) (hc : c ∈ g.topology.components)
    (hu : ((c.rows sweeps).row r)[k]? = some u) (hv : ((c.rows sweeps).row r)[k + 1]? = some v) :
    ∃ s t a b, g.ids[u]? = some s ∧ g.ids[v]? = some t ∧ g.place? geo sweeps s = some a ∧
      g.place? geo sweeps t = some b ∧ b.y = a.y ∧
        b.x = a.x + geo.nodeWidth + geo.horizontalSpacing := by
  obtain ⟨i, hi⟩ := List.mem_iff_getElem?.mp hc
  obtain ⟨s, hs⟩ := exists_id_of_mem_row hids hc (List.mem_of_getElem? hu)
  obtain ⟨t, ht⟩ := exists_id_of_mem_row hids hc (List.mem_of_getElem? hv)
  obtain ⟨a, ha, hax, hay⟩ := exists_place?_exact geo hids hi hu hs
  obtain ⟨b, hb, hbx, hby⟩ := exists_place?_exact geo hids hi hv ht
  refine ⟨s, t, a, b, hs, ht, ha, hb, hby.trans hay.symm, ?_⟩
  rw [hbx, hax, Geometry.slotLeft, Geometry.slotLeft]
  push_cast
  ring

theorem centred_spec (hids : g.ids.Nodup) (geo : Geometry ℚ) (hc : c ∈ g.topology.components)
    (hu : ((c.rows sweeps).row r).head? = some u)
    (hv : ((c.rows sweeps).row r).getLast? = some v) :
    ∃ s t a b, g.ids[u]? = some s ∧ g.ids[v]? = some t ∧ g.place? geo sweeps s = some a ∧
      g.place? geo sweeps t = some b ∧ (a.x + (b.x + geo.nodeWidth)) / 2 =
        geo.margin + geo.rowWidth (Geometry.widest (c.rows sweeps)) / 2 := by
  obtain ⟨i, hi⟩ := List.mem_iff_getElem?.mp hc
  rw [List.head?_eq_getElem?] at hu
  rw [List.getLast?_eq_getElem?] at hv
  obtain ⟨s, hs⟩ := exists_id_of_mem_row hids hc (List.mem_of_getElem? hu)
  obtain ⟨t, ht⟩ := exists_id_of_mem_row hids hc (List.mem_of_getElem? hv)
  obtain ⟨a, ha, hax, -⟩ := exists_place?_exact geo hids hi hu hs
  obtain ⟨b, hb, hbx, -⟩ := exists_place?_exact geo hids hi hv ht
  refine ⟨s, t, a, b, hs, ht, ha, hb, ?_⟩
  obtain ⟨count, hcount⟩ : ∃ count, ((c.rows sweeps).row r).length = count + 1 :=
    ⟨_, (Nat.succ_pred_eq_of_pos (List.length_pos_of_mem (List.mem_of_getElem? hu))).symm⟩
  rw [hax, hbx, hcount]
  exact geo.axis_eq _ count

/-- Graphs with distinct ids are drawn without overlaps. -/
theorem spread_of_nodup (hids : g.ids.Nodup) (hgeo : geo.Spaced) (sweeps : Nat) :
    g.Spread geo sweeps where
  apart _ hs _ ht hne := not_overlap hids hgeo sweeps hs ht hne
  inside s hs := by
    obtain ⟨u, hu⟩ := List.mem_iff_getElem?.mp hs
    obtain ⟨i, c, r, k, hc, hur⟩ := exists_slot hids hu sweeps
    obtain ⟨a, ha, hax, -⟩ := exists_place?_exact geo hids hc hur hu
    refine ⟨a, ha, ?_⟩
    rw [hax]
    exact hgeo.margin_le_slotLeft (Geometry.length_row_le_widest _ r) k
  slot _ hc _ hv := Component.existsUnique_slot (closed_of_mem_components hids hc).distinct sweeps hv
  members _ _ _ _ hv := Component.mem_of_mem_row hv
  slots _ hc r :=
    (Component.distinct_rows (closed_of_mem_components hids hc).distinct sweeps).map_slot r
  told _ hc := by
    have hclosed := closed_of_mem_components hids hc
    obtain ⟨slots, horder, htold⟩ :=
      Component.order?_eq hclosed (ne_nil_of_mem_components hc) sweeps
    exact ⟨_, slots, Component.rank?_eq hclosed, horder, htold⟩
  neighbours _ hc _ _ _ _ hu hv := neighbours_spec hids geo hc hu hv
  centred _ hc := ⟨_, fun _ _ _ hu hv => centred_spec hids geo hc hu hv⟩
  drawn _ _ hn := exists_place?_of_layout hn

theorem spread_of_nodup_scattered : scattered.ids.Nodup ∧
    (⟨280, 160, 0, 150, 50, -50⟩ : Geometry ℚ).Spaced ∧
      scattered.Spread ⟨280, 160, 0, 150, 50, -50⟩ 4 := by
  have hids : scattered.ids.Nodup := by decide
  have hgeo : (⟨280, 160, 0, 150, 50, -50⟩ : Geometry ℚ).Spaced := by
    constructor <;> norm_num
  exact ⟨hids, hgeo, spread_of_nodup hids hgeo 4⟩

end Graph

end ScriptFlow
