import ScriptFlow.Layout.Geometry
import ScriptFlow.Proofs.Ranking

/-! From rows to places. Sweeps only reorder the members within their rows, a place tells the row and
the slot of its vertex, and components are stacked: each starts below the end of the one before. -/

namespace ScriptFlow

namespace Rows

variable {rows rows' rows'' : Rows}

/-- The members of a row, none below the last one. -/
def row (rows : Rows) (r : Nat) : List Nat := rows[r]?.getD []

/-- The same members stand in the same rows. -/
structure Same (rows rows' : Rows) : Prop where
  length : rows.length = rows'.length
  perm : ∀ r, (rows.row r).Perm (rows'.row r)

theorem Same.refl (rows : Rows) : Same rows rows := ⟨rfl, fun _ => List.Perm.refl _⟩

theorem Same.trans (h : Same rows rows') (h' : Same rows' rows'') : Same rows rows'' :=
  ⟨h.length.trans h'.length, fun r => (h.perm r).trans (h'.perm r)⟩

/-- Every member stands at one place. -/
structure Distinct (rows : Rows) : Prop where
  nodup : ∀ r, (rows.row r).Nodup
  apart : ∀ r r' v, v ∈ rows.row r → v ∈ rows.row r' → r = r'

theorem Same.distinct (h : Same rows rows') (h' : rows'.Distinct) : rows.Distinct where
  nodup r := (h.perm r).nodup_iff.mpr (h'.nodup r)
  apart r r' v hv hv' := h'.apart r r' v ((h.perm r).mem_iff.mp hv) ((h.perm r').mem_iff.mp hv')

theorem sortRow_perm (rows : Rows) (neighbours : Nat → List Nat) (row : List Nat) :
    (sortRow rows neighbours row).Perm row := by
  have h := (List.mergeSort_perm (row.map fun v => (Weight.of rows (neighbours v) v, v))
    fun a b => a.1.le b.1).map Prod.snd
  rwa [List.map_map, Function.comp_def, List.map_id'] at h

theorem same_reorder (neighbours : Nat → List Nat) (rows : Rows) (i : Nat) :
    Same (reorder neighbours rows i) rows := by
  refine ⟨List.length_modify .., fun r => ?_⟩
  simp only [reorder, row, List.getElem?_modify]
  cases rows[r]? with
  | none => exact List.Perm.refl _
  | some l =>
    simp only [Option.map_eq_map, Option.map_some, Option.getD_some]
    split
    · exact sortRow_perm rows neighbours l
    · exact List.Perm.refl _

theorem same_foldl_reorder (neighbours : Nat → List Nat) (is : List Nat) (rows : Rows) :
    Same (is.foldl (reorder neighbours) rows) rows := by
  induction is generalizing rows with
  | nil => exact Same.refl rows
  | cons i is ih => exact (ih _).trans (same_reorder neighbours rows i)

theorem same_sweeps (dag : List (Nat × Nat)) (n : Nat) (rows : Rows) :
    Same (sweeps dag n rows) rows := by
  induction n generalizing rows with
  | zero => exact Same.refl rows
  | succ n ih =>
    exact (ih _).trans ((same_foldl_reorder _ _ _).trans (same_foldl_reorder _ _ _))

theorem foldl_max_le {ns : List Nat} {start n : Nat} :
    ns.foldl max start ≤ n ↔ start ≤ n ∧ ∀ m ∈ ns, m ≤ n := by
  induction ns generalizing start with
  | nil => simp
  | cons m ns ih => simp [ih, and_assoc]

/-- Each member stands in the row of its rank. -/
theorem row_ofRanks (ranks : List (Nat × Nat)) (r : Nat) :
    (ofRanks ranks).row r = (ranks.filter (·.2 == r)).map (·.1) := by
  unfold row ofRanks
  simp only [List.getElem?_map]
  by_cases hr : r < (ranks.map (·.2 + 1)).foldl max 0
  · simp [List.getElem?_range hr]
  · have hbelow : ∀ p ∈ ranks, p.2 ≠ r := by
      intro p hp
      have hle := (foldl_max_le.mp (Nat.le_of_not_lt hr)).2 (p.2 + 1) (List.mem_map_of_mem hp)
      omega
    rw [List.getElem?_eq_none (by simpa using hr), List.filter_eq_nil_iff.mpr (by simpa using hbelow)]
    rfl

theorem row_ofRanks_map (rank : Nat → Nat) (vs : List Nat) (r : Nat) :
    (ofRanks (vs.map fun v => (v, rank v))).row r = vs.filter (rank · == r) := by
  rw [row_ofRanks, List.filter_map, List.map_map]
  exact List.map_id' _

theorem distinct_ofRanks {vs : List Nat} (h : vs.Nodup) (rank : Nat → Nat) :
    (ofRanks (vs.map fun v => (v, rank v))).Distinct := by
  refine ⟨fun r => ?_, fun r r' v hv hv' => ?_⟩
  · rw [row_ofRanks_map]
    exact h.filter _
  · rw [row_ofRanks_map, List.mem_filter, beq_iff_eq] at hv hv'
    exact hv.2.symm.trans hv'.2

theorem lt_length_of_mem_row {v r : Nat} (h : v ∈ rows.row r) : r < rows.length := by
  by_contra hr
  rw [row, List.getElem?_eq_none (Nat.le_of_not_lt hr)] at h
  exact absurd h List.not_mem_nil

/-- Where no two members disagree on an answer, the first answer is any of them. -/
theorem findSome?_eq_some_of_agree {α β : Type} {f : α → Option β} {l : List α} {a : α} {b : β}
    (ha : a ∈ l) (hb : f a = some b) (h : ∀ a ∈ l, ∀ b', f a = some b' → b' = b) :
    l.findSome? f = some b := by
  cases hl : l.findSome? f with
  | none => exact absurd (List.findSome?_eq_none_iff.mp hl a ha) (by simp [hb])
  | some b' =>
    obtain ⟨a', ha', hb'⟩ := List.exists_of_findSome?_eq_some hl
    rw [h a' ha' b' hb']

theorem mem_rows {row : List Nat} (h : row ∈ rows) : ∃ r, rows.row r = row := by
  obtain ⟨r, hr⟩ := List.mem_iff_getElem?.mp h
  exact ⟨r, by rw [Rows.row, hr, Option.getD_some]⟩

theorem row_mem {v r : Nat} (h : v ∈ rows.row r) : rows.row r ∈ rows := by
  have hr := lt_length_of_mem_row h
  rw [row, List.getElem?_eq_getElem hr, Option.getD_some]
  exact List.getElem_mem hr

theorem idxOf?_eq_some_of_nodup {l : List Nat} (h : l.Nodup) {k v : Nat} :
    l.idxOf? v = some k ↔ l[k]? = some v := by
  rw [List.idxOf?_eq_some_iff]
  constructor
  · rintro ⟨hk, hv, -⟩
    exact List.getElem?_eq_some_iff.mpr ⟨hk, hv⟩
  · intro hv
    obtain ⟨hk, hkv⟩ := List.getElem?_eq_some_iff.mp hv
    refine ⟨hk, hkv, fun i hi hiv => ?_⟩
    have hik := h.getElem_inj_iff.mp (hiv.trans hkv.symm)
    omega

/-- The place of a member in its row is what a look through the rows finds, in whatever order. -/
theorem Distinct.findSome?_eq (h : rows.Distinct) {r k v : Nat} (hv : (rows.row r)[k]? = some v)
    {rows' : Rows} (hrows : ∀ row, row ∈ rows' ↔ row ∈ rows) :
    rows'.findSome? (·.idxOf? v) = some k := by
  have hmem : v ∈ rows.row r := List.mem_of_getElem? hv
  refine findSome?_eq_some_of_agree ((hrows _).mpr (row_mem hmem))
    ((idxOf?_eq_some_of_nodup (h.nodup r)).mpr hv) ?_
  intro row hrow k' hk'
  obtain ⟨r', rfl⟩ := mem_rows ((hrows row).mp hrow)
  rw [idxOf?_eq_some_of_nodup (h.nodup r')] at hk'
  obtain rfl := h.apart r' r v (List.mem_of_getElem? hk') hmem
  have hlt := (List.getElem?_eq_some_iff.mp hk').1
  exact (List.getElem?_inj hlt (h.nodup r')).mp (hk'.trans hv.symm)

theorem Distinct.slot_eq (h : rows.Distinct) {r k v : Nat} (hv : (rows.row r)[k]? = some v) :
    rows.slot v = k := by
  rw [slot, h.findSome?_eq hv fun _ => Iff.rfl, Option.getD_some]

/-- The slots of a row count from zero. -/
theorem Distinct.map_slot (h : rows.Distinct) (r : Nat) :
    (rows.row r).map rows.slot = List.range (rows.row r).length := by
  refine List.ext_getElem? fun k => ?_
  rw [List.getElem?_map]
  by_cases hk : k < (rows.row r).length
  · rw [List.getElem?_eq_getElem hk, List.getElem?_range hk, Option.map_some,
      h.slot_eq (List.getElem?_eq_getElem hk)]
  · rw [List.getElem?_eq_none (Nat.le_of_not_lt hk), List.getElem?_eq_none (by simpa using hk)]
    rfl

theorem Distinct.nodup_flatten (h : rows.Distinct) : rows.flatten.Nodup := by
  refine List.nodup_flatten.mpr ⟨fun row hrow => ?_, List.pairwise_iff_getElem.mpr ?_⟩
  · obtain ⟨r, rfl⟩ := mem_rows hrow
    exact h.nodup r
  · intro i j hi hj hij v hvi hvj
    have hrow : ∀ {k : Nat} (hk : k < rows.length), rows.row k = rows[k] := fun hk => by
      rw [row, List.getElem?_eq_getElem hk, Option.getD_some]
    rw [← hrow] at hvi hvj
    exact Nat.ne_of_lt hij (h.apart i j v hvi hvj)

end Rows

namespace Component

variable {c : Component} {rank : Nat → Nat} {r v : Nat}

/-- The rows of a component hold what its search found, by rank. -/
theorem row_rows (sweeps : Nat)
    (hranks : c.ranks c.search = c.search.found.map fun v => (v, rank v)) (r : Nat) :
    ((c.rows sweeps).row r).Perm (c.search.found.filter (rank · == r)) := by
  rw [← Rows.row_ofRanks_map, ← hranks]
  exact (Rows.same_sweeps c.search.dag sweeps (.ofRanks (c.ranks c.search))).perm r

/-- Every member stands in a row. -/
theorem exists_row (c : Component) (sweeps : Nat) {v : Nat} (h : v ∈ c.members) :
    ∃ r, v ∈ (c.rows sweeps).row r := by
  have hrow := row_rows (c := c) sweeps rfl (((c.initialRanking c.search).run
    (keptTargets c.search)).rank v)
  exact ⟨_, hrow.mem_iff.mpr (List.mem_filter.mpr ⟨mem_found.mpr h, beq_self_eq_true _⟩)⟩

/-- Sorting the rows leaves each member at one place. -/
theorem distinct_rows (h : c.members.Nodup) (sweeps : Nat) : (c.rows sweeps).Distinct :=
  (Rows.same_sweeps _ sweeps _).distinct
    (Rows.distinct_ofRanks ((found_perm h).nodup_iff.mpr h) _)

theorem mem_of_mem_row {sweeps : Nat} (h : v ∈ (c.rows sweeps).row r) : v ∈ c.members := by
  rw [(row_rows (c := c) sweeps rfl r).mem_iff] at h
  exact mem_found.mp (List.mem_filter.mp h).1

theorem nodup_flatten_rows (c : Component) (sweeps : Nat) : (c.rows sweeps).flatten.Nodup := by
  have hfound : c.search.found.Nodup := c.search_spec.1.nodup_iff.mpr (nodup_eraseDups c.members)
  exact ((Rows.same_sweeps _ sweeps _).distinct (Rows.distinct_ofRanks hfound _)).nodup_flatten

theorem mem_of_mem_flatten_rows {sweeps : Nat} (h : v ∈ (c.rows sweeps).flatten) :
    v ∈ c.members := by
  obtain ⟨row, hrow, hv⟩ := List.mem_flatten.mp h
  obtain ⟨r, rfl⟩ := Rows.mem_rows hrow
  exact mem_of_mem_row hv

theorem existsUnique_slot (h : c.members.Nodup) (sweeps : Nat) (hv : v ∈ c.members) :
    ∃! p : Nat × Nat, ((c.rows sweeps).row p.1)[p.2]? = some v := by
  have hdistinct := distinct_rows h sweeps
  obtain ⟨r, hr⟩ := c.exists_row sweeps hv
  obtain ⟨k, hk⟩ := List.mem_iff_getElem?.mp hr
  refine ⟨(r, k), hk, ?_⟩
  rintro ⟨r', k'⟩ hk'
  obtain rfl := hdistinct.apart r r' v hr (List.mem_of_getElem? hk')
  have hlt := (List.getElem?_eq_some_iff.mp hk).1
  rw [(List.getElem?_inj hlt (hdistinct.nodup r)).mp (hk.trans hk'.symm)]

end Component

namespace Geometry

variable {α : Type} [Coordinate α] (geo : Geometry α) {p : Placement α} {rows : Rows}

open Coordinate

/-- A place in a component that starts at the top tells the row and the slot of its vertex. -/
theorem mem_placeRows : p ∈ geo.placeRows rows ↔ ∃ r slot,
    (rows.row r)[slot]? = some p.vertex ∧
      p.x = geo.rowStart (widest rows) (rows.row r).length + ofNat slot * geo.stepX ∧
      p.y = geo.margin + ofNat r * geo.stepY := by
  simp only [placeRows, placeRow, List.mem_flatMap, List.mem_map, Prod.exists,
    List.mem_zipIdx_iff_getElem?]
  constructor
  · rintro ⟨row, r, hrow, v, slot, hslot, rfl⟩
    have hr : rows.row r = row := by rw [Rows.row, hrow, Option.getD_some]
    exact ⟨r, slot, by rw [hr]; exact hslot, by rw [hr], rfl⟩
  · rintro ⟨r, slot, hslot, hx, hy⟩
    have hmem : p.vertex ∈ rows.row r := List.mem_of_getElem? hslot
    have hrow : rows[r]? = some (rows.row r) := by
      rw [Rows.row, List.getElem?_eq_getElem (Rows.lt_length_of_mem_row hmem), Option.getD_some]
    exact ⟨rows.row r, r, hrow, p.vertex, slot, hslot, by rw [← hx, ← hy]⟩

/-- Where the component with an index starts, when the first one starts at `offset`. -/
def startAt (offset : α) : List Rows → Nat → α
  | rows :: rest, i + 1 => startAt (offset + (geo.bottom rows + geo.capabilityGap)) rest i
  | _, _ => offset

/-- A place in a stack is a place of one of the components, moved to where that one starts. -/
theorem mem_stack {stacked : List Rows} {offset : α} : p ∈ geo.stack offset stacked ↔
    ∃ i rows, stacked[i]? = some rows ∧ ∃ q ∈ geo.placeRows rows,
      p = { q with y := q.y + geo.startAt offset stacked i } := by
  induction stacked generalizing offset with
  | nil => simp [stack]
  | cons first rest ih =>
    rw [stack, List.mem_append, ih, List.mem_map]
    constructor
    · rintro (⟨q, hq, rfl⟩ | ⟨i, rows, hi, h⟩)
      · exact ⟨0, first, rfl, q, hq, rfl⟩
      · exact ⟨i + 1, rows, hi, h⟩
    · rintro ⟨i, rows, hi, q, hq, rfl⟩
      cases i with
      | zero =>
        obtain rfl : first = rows := Option.some.inj hi
        exact Or.inl ⟨q, hq, rfl⟩
      | succ i => exact Or.inr ⟨i, rows, hi, q, hq, rfl⟩

theorem vertices_placeRows (rows : Rows) : (geo.placeRows rows).map (·.vertex) = rows.flatten := by
  have hrow : ∀ w r (row : List Nat), (geo.placeRow w r row).map (·.vertex) = row := by
    intro w r row
    rw [placeRow, List.map_map]
    exact List.zipIdx_map_fst 0 row
  rw [placeRows, List.map_flatMap]
  simp only [hrow]
  rw [List.flatMap_def, List.zipIdx_map_fst]

theorem vertices_stack (offset : α) (stacked : List Rows) :
    (geo.stack offset stacked).map (·.vertex) = (stacked.map List.flatten).flatten := by
  induction stacked generalizing offset with
  | nil => rfl
  | cons rows rest ih =>
    rw [stack, List.map_append, List.map_map, ih, List.map_cons, List.flatten_cons,
      ← geo.vertices_placeRows rows]
    rfl

/-- Every vertex is placed. -/
theorem exists_placement {t : Topology} {v : Nat} (h : v ∈ t.order) (sweeps : Nat) :
    ∃ p ∈ t.place geo sweeps, p.vertex = v := by
  obtain ⟨members, hclass, hv⟩ := t.exists_class h
  obtain ⟨i, hi⟩ := List.mem_iff_getElem?.mp hclass
  obtain ⟨r, hr⟩ := (t.component members).exists_row sweeps hv
  obtain ⟨slot, hslot⟩ := List.mem_iff_getElem?.mp hr
  have hrows : (t.components.map (·.rows sweeps))[i]? =
      some ((t.component members).rows sweeps) := by
    rw [List.getElem?_map, Topology.components, List.getElem?_map, hi]
    rfl
  exact ⟨_, geo.mem_stack.mpr ⟨i, _, hrows, ⟨v, _, _⟩,
    geo.mem_placeRows.mpr ⟨r, slot, hslot, rfl, rfl⟩, rfl⟩, rfl⟩

end Geometry

end ScriptFlow
