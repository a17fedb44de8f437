import ScriptFlow.Proofs.Countdown
import ScriptFlow.Proofs.Rows

/-! The order within the rows once more, with a table of slots that is changed while the rows are
sorted. After any sweeps the table tells the slot of every member, so the rows are those of the sweeps
that look through the rows for each slot. -/

namespace ScriptFlow

namespace Table

variable {α : Type}

/-- Sets the value of a key, new or not. -/
def put (t : Table α) (k : Nat) (a : α) : Table α :=
  ⟨k :: t.keys, fun i => if i = k then a else t.value i⟩

theorem get?_put (t : Table α) (k : Nat) (a : α) (i : Nat) :
    (t.put k a).get? i = if i = k then some a else t.get? i := by
  unfold get? put
  by_cases hi : i = k
  · simp [hi]
  · simp [hi]

/-- Sets the slots of the members of a row. -/
def enter (slots : Table Nat) (row : List Nat) : Table Nat :=
  row.zipIdx.foldl (fun t p => t.put p.1 p.2) slots

/-- The last slot that is entered for a key stands, and here each key has one. -/
theorem get?_foldl_put {row : List Nat} (h : row.Nodup) (n : Nat) (slots : Table Nat) (v : Nat) :
    ((row.zipIdx n).foldl (fun t p => t.put p.1 p.2) slots).get? v =
      ((row.idxOf? v).map (· + n)).or (slots.get? v) := by
  induction row generalizing n slots with
  | nil => rfl
  | cons w row ih =>
    obtain ⟨hw, hrow⟩ := List.nodup_cons.mp h
    rw [List.zipIdx_cons, List.foldl_cons, ih hrow, get?_put, List.idxOf?_cons]
    by_cases hv : v = w
    · subst hv
      rw [List.idxOf?_eq_none_iff.mpr hw]
      simp
    · have hne : ¬ (w == v) = true := by simpa using fun he : w = v => hv he.symm
      rw [if_neg hv, if_neg hne, Option.map_map]
      congr 2
      funext i
      simp only [Function.comp_apply]
      omega

theorem get?_enter {row : List Nat} (h : row.Nodup) (slots : Table Nat) (v : Nat) :
    (slots.enter row).get? v = (row.idxOf? v).or (slots.get? v) := by
  rw [enter, get?_foldl_put h]
  simp

end Table

/-- A mean of looked up slots. -/
def weight? (slots : Table Nat) (neighbours : List Nat) (v : Nat) : Option Weight := do
  let k ← slots.get? v
  match neighbours with
  | [] => some ⟨k, 1, k⟩
  | ns =>
    let ks ← ns.mapM slots.get?
    some ⟨ks.foldl (· + ·) 0, ns.length, k⟩

namespace Rows

/-- A table tells the slot of every member of some rows. -/
def Told (rows : Rows) (slots : Table Nat) : Prop :=
  ∀ r, ∀ v ∈ rows.row r, slots.get? v = some (rows.slot v)

def sortRow? (slots : Table Nat) (neighbours : Table (List Nat)) (row : List Nat) :
    Option (List Nat) := do
  let ps ← row.mapM fun v => do
    let ns ← neighbours.get? v
    let w ← weight? slots ns v
    some (w, v)
  some ((ps.mergeSort fun a b => a.1.le b.1).map (·.2))

/-- Sorts a row and enters its slots. -/
def reorder? (neighbours : Table (List Nat)) (s : Rows × Table Nat) (r : Nat) :
    Option (Rows × Table Nat) := do
  let row ← s.1[r]?
  let row ← sortRow? s.2 neighbours row
  some (s.1.set r row, s.2.enter row)

/-- Down by predecessors, then up by successors, so many times. -/
def sweeps? (before after : Table (List Nat)) : Nat → Rows × Table Nat → Option (Rows × Table Nat)
  | 0, s => some s
  | n + 1, s => do
    let s ← (List.range' 1 (s.1.length - 1)).foldlM (reorder? before) s
    let s ← ((List.range (s.1.length - 1)).reverse).foldlM (reorder? after) s
    sweeps? before after n s

variable {rows : Rows} {slots : Table Nat} {ns ns' : List Nat} {r v : Nat}

theorem weight_perm (h : ns.Perm ns') (rows : Rows) (v : Nat) :
    Weight.of rows ns v = Weight.of rows ns' v := by
  cases ns with
  | nil => rw [List.nil_perm.mp h]
  | cons n ns =>
    cases ns' with
    | nil => exact absurd h.length_eq (by simp)
    | cons n' ns' =>
      simp only [Weight.of, h.length_eq]
      refine congrArg (Weight.mk · _ _) (h.foldl_eq' ?_ 0)
      intro a _ b _ total
      omega

theorem weight?_eq (htold : rows.Told slots) (hns : ∀ n ∈ ns, ∃ r, n ∈ rows.row r)
    (hv : v ∈ rows.row r) : weight? slots ns v = some (Weight.of rows ns v) := by
  have hslots : ns.mapM slots.get? = some (ns.map rows.slot) := mapM_eq_map fun n hn => by
    obtain ⟨r', hr'⟩ := hns n hn
    exact htold r' n hr'
  cases ns with
  | nil => rw [weight?, htold r v hv]; rfl
  | cons n ns =>
    rw [weight?, htold r v hv]
    simp only [hslots, Option.bind_eq_bind, Option.bind_some, List.foldl_map]
    rfl

theorem row_reorder (neighbours : Nat → List Nat) (hr : r < rows.length) (i : Nat) :
    (reorder neighbours rows r).row i =
      if i = r then sortRow rows neighbours (rows.row r) else rows.row i := by
  unfold reorder row
  rw [List.getElem?_modify]
  by_cases hi : i = r
  · subst hi
    simp [hr]
  · have hne : r ≠ i := fun he => hi he.symm
    simp [hi, hne]

theorem set_eq_reorder (neighbours : Nat → List Nat) (hr : r < rows.length) :
    rows.set r (sortRow rows neighbours (rows.row r)) = reorder neighbours rows r := by
  unfold reorder row
  rw [List.modify_eq_set_getElem?, List.getElem?_eq_getElem hr]
  rfl

/-- The neighbours of all members, in tables, up to their order. -/
structure Neighbours (members : List Nat) (rows : Rows) (table neighbours : Nat → List Nat) :
    Prop where
  stand : ∀ v, v ∈ members ↔ ∃ r, v ∈ rows.row r
  perm : ∀ v ∈ members, (table v).Perm (neighbours v)
  closed : ∀ v ∈ members, ∀ n ∈ table v, n ∈ members

variable {members : List Nat} {table neighbours : Nat → List Nat} {rows' : Rows}

theorem Neighbours.same (h : Neighbours members rows table neighbours) (hsame : Same rows' rows) :
    Neighbours members rows' table neighbours where
  stand v := by
    rw [h.stand]
    exact exists_congr fun r => (hsame.perm r).mem_iff.symm
  perm := h.perm
  closed := h.closed

theorem sortRow?_eq (h : Neighbours members rows table neighbours) (htold : rows.Told slots)
    (r : Nat) :
    sortRow? slots ⟨members, table⟩ (rows.row r) = some (sortRow rows neighbours (rows.row r)) := by
  have hweights : (rows.row r).mapM (fun v => do
      let ns ← (⟨members, table⟩ : Table (List Nat)).get? v
      let w ← weight? slots ns v
      some (w, v)) = some ((rows.row r).map fun v => (Weight.of rows (neighbours v) v, v)) := by
    refine mapM_eq_map fun v hv => ?_
    have hm : v ∈ members := (h.stand v).mpr ⟨r, hv⟩
    have hns : ∀ n ∈ table v, ∃ r, n ∈ rows.row r :=
      fun n hn => (h.stand n).mp (h.closed v hm n hn)
    rw [Table.get?_eq hm, Option.bind_eq_bind, Option.bind_some, weight?_eq htold hns hv,
      weight_perm (h.perm v hm)]
    rfl
  rw [sortRow?, hweights]
  rfl

/-- Entering the slots of one row keeps the table up to date. -/
theorem told_reorder (hdistinct : rows.Distinct) (htold : rows.Told slots) (hr : r < rows.length)
    (neighbours : Nat → List Nat) : (reorder neighbours rows r).Told
      (slots.enter (sortRow rows neighbours (rows.row r))) := by
  have hdistinct' := (same_reorder neighbours rows r).distinct hdistinct
  have hsorted : (reorder neighbours rows r).row r = sortRow rows neighbours (rows.row r) := by
    rw [row_reorder neighbours hr, if_pos rfl]
  intro i v hv
  obtain ⟨k, hk⟩ := List.mem_iff_getElem?.mp hv
  rw [hdistinct'.slot_eq hk, ← hsorted, Table.get?_enter (hdistinct'.nodup r)]
  by_cases hi : i = r
  · subst hi
    rw [(idxOf?_eq_some_of_nodup (hdistinct'.nodup i)).mpr hk]
    rfl
  · have hout : v ∉ (reorder neighbours rows r).row r :=
      fun hm => hi (hdistinct'.apart i r v hv hm)
    rw [row_reorder neighbours hr, if_neg hi] at hk
    rw [List.idxOf?_eq_none_iff.mpr hout, Option.none_or, htold i v (List.mem_of_getElem? hk),
      hdistinct.slot_eq hk]

theorem reorder?_eq (h : Neighbours members rows table neighbours) (hdistinct : rows.Distinct)
    (htold : rows.Told slots) (hr : r < rows.length) :
    ∃ slots', reorder? ⟨members, table⟩ (rows, slots) r = some (reorder neighbours rows r, slots') ∧
      (reorder neighbours rows r).Told slots' := by
  refine ⟨_, ?_, told_reorder hdistinct htold hr neighbours⟩
  have hrow : rows[r]? = some (rows.row r) := by
    rw [row, List.getElem?_eq_getElem hr, Option.getD_some]
  simp only [reorder?, hrow, sortRow?_eq h htold, Option.bind_eq_bind, Option.bind_some,
    set_eq_reorder neighbours hr]

theorem foldlM_reorder?_eq {rs : List Nat} (h : Neighbours members rows table neighbours)
    (hdistinct : rows.Distinct) (htold : rows.Told slots) (hrs : ∀ r ∈ rs, r < rows.length) :
    ∃ slots', rs.foldlM (reorder? ⟨members, table⟩) (rows, slots) =
        some (rs.foldl (reorder neighbours) rows, slots') ∧
      (rs.foldl (reorder neighbours) rows).Told slots' := by
  induction rs generalizing rows slots with
  | nil => exact ⟨slots, rfl, htold⟩
  | cons r rs ih =>
    obtain ⟨hr, hrs⟩ := List.forall_mem_cons.mp hrs
    obtain ⟨slots₁, hreorder, htold₁⟩ := reorder?_eq h hdistinct htold hr
    have hsame := same_reorder neighbours rows r
    obtain ⟨slots₂, hfold, htold₂⟩ := ih (h.same hsame) (hsame.distinct hdistinct) htold₁
      (fun i hi => hsame.length ▸ hrs i hi)
    refine ⟨slots₂, ?_, htold₂⟩
    rw [List.foldlM_cons, hreorder, Option.bind_eq_bind, Option.bind_some, hfold, List.foldl_cons]

/-- The sweeps with a table of slots sort the rows like those without. -/
theorem sweeps?_eq {dag : List (Nat × Nat)} {before after : Nat → List Nat}
    (hbefore : Neighbours members rows before fun v => (dag.filter (·.2 == v)).map (·.1))
    (hafter : Neighbours members rows after fun v => (dag.filter (·.1 == v)).map (·.2))
    (hdistinct : rows.Distinct) (htold : rows.Told slots) (n : Nat) :
    ∃ slots', sweeps? ⟨members, before⟩ ⟨members, after⟩ n (rows, slots) =
        some (sweeps dag n rows, slots') ∧ (sweeps dag n rows).Told slots' := by
  induction n generalizing rows slots with
  | zero => exact ⟨slots, rfl, htold⟩
  | succ n ih =>
    have hdown := same_foldl_reorder (fun v => (dag.filter (·.2 == v)).map (·.1))
      (List.range' 1 (rows.length - 1)) rows
    have hrange : ∀ r ∈ List.range' 1 (rows.length - 1), r < rows.length := by
      intro r hr
      rw [List.mem_range'_1] at hr
      omega
    obtain ⟨slots₁, hfold₁, htold₁⟩ := foldlM_reorder?_eq hbefore hdistinct htold hrange
    have hup := same_foldl_reorder (fun v => (dag.filter (·.1 == v)).map (·.2))
      (List.range (rows.length - 1)).reverse
      ((List.range' 1 (rows.length - 1)).foldl
        (reorder fun v => (dag.filter (·.2 == v)).map (·.1)) rows)
    have hrange' : ∀ r ∈ (List.range (rows.length - 1)).reverse, r <
        ((List.range' 1 (rows.length - 1)).foldl
          (reorder fun v => (dag.filter (·.2 == v)).map (·.1)) rows).length := by
      intro r hr
      rw [List.mem_reverse, List.mem_range] at hr
      rw [hdown.length]
      omega
    obtain ⟨slots₂, hfold₂, htold₂⟩ :=
      foldlM_reorder?_eq (hafter.same hdown) (hdown.distinct hdistinct) htold₁ hrange'
    have hsame := hup.trans hdown
    obtain ⟨slots₃, hrest, htold₃⟩ :=
      ih (hbefore.same hsame) (hafter.same hsame) (hsame.distinct hdistinct) htold₂
    refine ⟨slots₃, ?_, htold₃⟩
    rw [sweeps?, hfold₁, Option.bind_eq_bind, Option.bind_some]
    simp only [hdown.length]
    rw [hfold₂, Option.bind_some, hrest]
    rfl

/-- Adds a member to a row. -/
def append? (rows : Rows) (r v : Nat) : Option Rows :=
  if r < rows.length then some (rows.modify r (· ++ [v])) else none

/-- So many rows of some members by their ranks. -/
def byRank (depth : Nat) (rank : Nat → Nat) (vs : List Nat) : Rows :=
  (List.range depth).map fun r => vs.filter (rank · == r)

variable {depth : Nat} {rank : Nat → Nat} {vs ws : List Nat}

theorem append?_byRank (h : rank v < depth) :
    (byRank depth rank vs).append? (rank v) v = some (byRank depth rank (vs ++ [v])) := by
  rw [append?, if_pos (by simpa [byRank] using h)]
  refine congrArg some (List.ext_getElem? fun r => ?_)
  rw [List.getElem?_modify, byRank, byRank, List.getElem?_map, List.getElem?_map]
  by_cases hr : r < depth
  · rw [List.getElem?_range hr]
    by_cases hrank : rank v = r
    · simp [List.filter_append, hrank]
    · simp [List.filter_append, hrank]
  · rw [List.getElem?_eq_none (by simpa using hr)]
    rfl

theorem foldlM_append?_byRank (h : ∀ v ∈ ws, rank v < depth) (get? : Nat → Option Nat)
    (hget : ∀ v ∈ ws, get? v = some (rank v)) : ws.foldlM (fun rows v => do
      let r ← get? v
      rows.append? r v) (byRank depth rank vs) = some (byRank depth rank (vs ++ ws)) := by
  induction ws generalizing vs with
  | nil => rw [List.append_nil]; rfl
  | cons w ws ih =>
    obtain ⟨hw, hws⟩ := List.forall_mem_cons.mp h
    obtain ⟨hgetw, hget⟩ := List.forall_mem_cons.mp hget
    rw [List.foldlM_cons, hgetw]
    change ((byRank depth rank vs).append? (rank w) w).bind _ = _
    rw [append?_byRank hw, Option.bind_some, ih hws hget, List.append_assoc, List.singleton_append]

/-- There are as many rows as the largest rank asks for. -/
theorem ofRanks_eq_byRank {deepest : Nat} (hmem : ∃ v ∈ vs, rank v = deepest)
    (hle : ∀ v ∈ vs, rank v ≤ deepest) :
    ofRanks (vs.map fun v => (v, rank v)) = byRank (deepest + 1) rank vs := by
  have hdepth : ((vs.map fun v => (v, rank v)).map (·.2 + 1)).foldl max 0 = deepest + 1 := by
    refine Nat.le_antisymm (foldl_max_le.mpr ⟨Nat.zero_le _, ?_⟩) ?_
    · intro m hm
      simp only [List.map_map, List.mem_map, Function.comp_apply] at hm
      obtain ⟨v, hv, rfl⟩ := hm
      exact Nat.succ_le_succ (hle v hv)
    · obtain ⟨v, hv, rfl⟩ := hmem
      refine (foldl_max_le.mp (Nat.le_refl _)).2 (rank v + 1) ?_
      rw [List.map_map]
      exact List.mem_map.mpr ⟨v, hv, rfl⟩
  rw [ofRanks, byRank, hdepth]
  refine List.map_congr_left fun r _ => ?_
  rw [List.filter_map, List.map_map]
  exact List.map_id' _

/-- Row after row is entered, so the last row that holds a member tells its slot. -/
theorem get?_foldl_enter (h : ∀ row ∈ rows, row.Nodup) (slots : Table Nat) (v : Nat) :
    (rows.foldl Table.enter slots).get? v =
      (rows.reverse.findSome? (·.idxOf? v)).or (slots.get? v) := by
  induction rows generalizing slots with
  | nil => rfl
  | cons row rows ih =>
    obtain ⟨hrow, hrows⟩ := List.forall_mem_cons.mp h
    rw [List.foldl_cons, ih hrows, Table.get?_enter hrow, List.reverse_cons,
      List.findSome?_append, List.findSome?_singleton, Option.or_assoc]

theorem told_enter (h : rows.Distinct) : rows.Told (rows.foldl Table.enter ⟨[], fun _ => 0⟩) := by
  have hnodup : ∀ row ∈ rows, row.Nodup := by
    intro row hrow
    obtain ⟨i, rfl⟩ := mem_rows hrow
    exact h.nodup i
  intro r v hv
  obtain ⟨k, hk⟩ := List.mem_iff_getElem?.mp hv
  rw [get?_foldl_enter hnodup, h.findSome?_eq hk (fun _ => List.mem_reverse), h.slot_eq hk]
  rfl

end Rows

/-- A list that repeats nothing is sorted by its own indices. -/
theorem mergeSort_idxOf {l vs : List Nat} (h : l.Nodup) (hp : vs.Perm l) :
    vs.mergeSort (fun u v => l.idxOf u ≤ l.idxOf v) = l := by
  have hsorted : l.Pairwise fun u v => l.idxOf u ≤ l.idxOf v :=
    List.pairwise_iff_forall_sublist.mpr fun hsub => (idxOf_lt_of_sublist hsub h).le
  have hmerged : (vs.mergeSort fun u v => decide (l.idxOf u ≤ l.idxOf v)).Pairwise
      fun u v => l.idxOf u ≤ l.idxOf v := by
    refine (List.pairwise_mergeSort ?_ ?_ vs).imp fun h => of_decide_eq_true h
    · intro u v w huv hvw
      simp only [decide_eq_true_eq] at huv hvw ⊢
      omega
    · intro u v
      simp only [Bool.or_eq_true, decide_eq_true_eq]
      omega
  refine List.Perm.eq_of_pairwise ?_ hmerged hsorted ((List.mergeSort_perm _ _).trans hp)
  intro u v hu _ huv hvu
  rw [List.mem_mergeSort, hp.mem_iff] at hu
  exact (List.idxOf_inj hu).mp (Nat.le_antisymm huv hvu)

namespace Component

variable {c : Component}

/-- Puts every member into the row of its rank, in the order in which they were found. -/
def layers? (c : Component) (s : Trace) (rank : Table Nat) : Option Rows := do
  let ranks ← c.members.mapM rank.get?
  let deepest ← ranks.max?
  let sorted ← sortBy? s.found.idxOf? c.members
  sorted.foldlM (fun rows v => do
    let r ← rank.get? v
    rows.append? r v) (List.replicate (deepest + 1) [])

/-- The sources of the kept arcs to each member. -/
def predecessors? (c : Component) (s : Trace) : Option (Table (List Nat)) :=
  (s.dag.keys.flatMap fun u => (s.dag.value u).map fun v => (v, u)).foldlM
    (fun t p => t.change? p.1 (· ++ [p.2])) ⟨c.members, fun _ => []⟩

def order? (c : Component) (s : Trace) (rank : Table Nat) (sweeps : Nat) :
    Option (Rows × Table Nat) := do
  let rows ← c.layers? s rank
  let before ← c.predecessors? s
  Rows.sweeps? before s.dag sweeps (rows, rows.foldl Table.enter ⟨[], fun _ => 0⟩)

theorem layers?_eq {s : Search} (hmembers : c.members.Nodup) (hs : s.Covers c.members)
    (hne : c.members ≠ []) (rank : Nat → Nat) :
    c.layers? (s.trace c.members) ⟨c.members, rank⟩ =
      some (.ofRanks (s.found.map fun v => (v, rank v))) := by
  have hmem : ∀ v, v ∈ s.found ↔ v ∈ c.members := fun _ => hs.found.mem_iff
  have hranks : c.members.mapM (⟨c.members, rank⟩ : Table Nat).get? = some (c.members.map rank) :=
    mapM_eq_map fun v hv => Table.get?_eq hv
  obtain ⟨deepest, hdeepest⟩ : ∃ deepest, (c.members.map rank).max? = some deepest :=
    Option.isSome_iff_exists.mp (by simpa [List.isSome_max?_iff] using hne)
  obtain ⟨hattained, hle⟩ := List.max?_eq_some_iff.mp hdeepest
  have hsorted : sortBy? s.found.idxOf? c.members = some s.found := by
    rw [sortBy?_eq fun v hv => idxOf?_eq_idxOf ((hmem v).mpr hv),
      mergeSort_idxOf (hs.found.nodup_iff.mpr hmembers) hs.found.symm]
  have hle' : ∀ v ∈ s.found, rank v ≤ deepest :=
    fun v hv => hle _ (List.mem_map_of_mem ((hmem v).mp hv))
  have hattained' : ∃ v ∈ s.found, rank v = deepest := by
    obtain ⟨v, hv, rfl⟩ := List.mem_map.mp hattained
    exact ⟨v, (hmem v).mpr hv, rfl⟩
  have hempty : List.replicate (deepest + 1) [] = Rows.byRank (deepest + 1) rank [] := by
    simp [Rows.byRank]
  rw [Rows.ofRanks_eq_byRank hattained' hle']
  simp only [layers?, hranks, hdeepest, Search.trace, hsorted, Option.bind_eq_bind,
    Option.bind_some, hempty]
  exact Rows.foldlM_append?_byRank (fun v hv => Nat.lt_succ_of_le (hle' v hv)) _
    fun v hv => Table.get?_eq ((hmem v).mp hv)

theorem predecessors?_eq {s : Search} (hmembers : c.members.Nodup) (hs : s.Covers c.members) :
    ∃ before : Nat → List Nat,
      c.predecessors? (s.trace c.members) = some ⟨c.members, before⟩ ∧
        ∀ v, (before v).Perm ((s.dag.filter (·.2 == v)).map (·.1)) := by
  have hpairs : (c.members.flatMap fun u => (keptTargets s u).map fun v => (v, u)).Perm
      (s.dag.map Prod.swap) := by
    have hmap := (flatMap_filter_perm hmembers hs).map Prod.swap
    rw [List.map_flatMap] at hmap
    refine (List.Perm.of_eq (List.flatMap_congr fun u _ => ?_)).trans hmap
    rw [keptTargets, List.map_map]
    refine List.map_congr_left fun a ha => ?_
    rw [Function.comp_apply, ← beq_iff_eq.mp (List.mem_filter.mp ha).2]
    rfl
  have hkeys : ∀ p ∈ c.members.flatMap fun u => (keptTargets s u).map fun v => (v, u),
      p.1 ∈ c.members := by
    intro p hp
    obtain ⟨a, ha, rfl⟩ := List.mem_map.mp (hpairs.mem_iff.mp hp)
    exact (hs.ends a ha).2
  refine ⟨_, by rw [predecessors?, Search.trace]; exact Table.foldlM_append_eq hkeys, fun v => ?_⟩
  have hfilter := (hpairs.filter (·.1 == v)).map (·.2)
  rw [List.filter_map, List.map_map] at hfilter
  exact hfilter

/-- The order of the rows never fails, whatever the ranks, and its table tells the slot of every
member. -/
theorem order?_ranked {s : Search} (hmembers : c.members.Nodup) (hs : s.Covers c.members)
    (hne : c.members ≠ []) (rank : Nat → Nat) (sweeps : Nat) :
    ∃ slots, c.order? (s.trace c.members) ⟨c.members, rank⟩ sweeps =
        some (Rows.sweeps s.dag sweeps (.ofRanks (s.found.map fun v => (v, rank v))), slots) ∧
      (Rows.sweeps s.dag sweeps (.ofRanks (s.found.map fun v => (v, rank v)))).Told slots := by
  obtain ⟨before, hbefore, hperm⟩ := predecessors?_eq hmembers hs
  have hdistinct := Rows.distinct_ofRanks (hs.found.nodup_iff.mpr hmembers) rank
  have hstand : ∀ v, v ∈ c.members ↔
      ∃ r, v ∈ (Rows.ofRanks (s.found.map fun v => (v, rank v))).row r := by
    intro v
    simp only [Rows.row_ofRanks_map, List.mem_filter, beq_iff_eq, hs.found.mem_iff]
    exact ⟨fun hv => ⟨_, hv, rfl⟩, fun ⟨_, hv, _⟩ => hv⟩
  have hup : Rows.Neighbours c.members (.ofRanks (s.found.map fun v => (v, rank v))) before
      fun v => (s.dag.filter (·.2 == v)).map (·.1) := by
    refine ⟨hstand, fun v _ => hperm v, fun v _ n hn => ?_⟩
    obtain ⟨a, ha, rfl⟩ := List.mem_map.mp ((hperm v).mem_iff.mp hn)
    exact (hs.ends a (List.mem_filter.mp ha).1).1
  have hdown : Rows.Neighbours c.members (.ofRanks (s.found.map fun v => (v, rank v)))
      (keptTargets s) fun v => (s.dag.filter (·.1 == v)).map (·.2) :=
    ⟨hstand, fun v _ => List.Perm.refl _,
      fun v _ n hn => (hs.ends (v, n) (mem_keptTargets.mp hn)).2⟩
  obtain ⟨slots, hsweeps, htold⟩ :=
    Rows.sweeps?_eq hup hdown hdistinct (Rows.told_enter hdistinct) sweeps
  refine ⟨slots, ?_, htold⟩
  rw [order?, layers?_eq hmembers hs hne, hbefore, Option.bind_eq_bind, Option.bind_some]
  exact hsweeps

/-- With the ranks of the component its rows are those of the layout. -/
theorem order?_eq (hc : c.Closed) (hne : c.members ≠ []) (sweeps : Nat) :
    ∃ slots, c.order? (c.search.trace c.members)
        ⟨c.members, ((c.initialRanking c.search).run (keptTargets c.search)).rank⟩ sweeps =
          some (c.rows sweeps, slots) ∧
      (c.rows sweeps).Told slots :=
  order?_ranked hc.distinct hc.covers hne _ sweeps

end Component

end ScriptFlow
