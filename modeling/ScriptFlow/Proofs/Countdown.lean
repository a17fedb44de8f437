import ScriptFlow.Proofs.Ranking
import ScriptFlow.Proofs.Tables
import Mathlib.Data.List.Perm.Subperm

/-! The ranking of a component once more, with a table of counts. A count falls with every arc that is
followed, and the member whose count comes to zero is queued. Where members repeat in the queue, counts
fall below zero; still a member awaits an arc if and only if its count is positive, so both rankings
queue the same members and end alike. -/

namespace ScriptFlow

/-- The ranking with a count for each member of the arcs into it that were not followed. -/
structure Countdown where
  queue : List Nat
  degree : Table Int
  rank : Table Nat

namespace Countdown

def follow? (u : Nat) (s : Countdown) (v : Nat) : Option Countdown := do
  let low ← s.rank.get? u
  let rank ← s.rank.change? v (max · (low + 1))
  let degree ← s.degree.change? v (· - 1)
  let d ← degree.get? v
  some ⟨if d = 0 then s.queue ++ [v] else s.queue, degree, rank⟩

/-- Takes the members of the queue one by one, so many at most. -/
def run? (dag : Table (List Nat)) : Nat → Countdown → Option Countdown
  | limit, s =>
    match s.queue, limit with
    | [], _ => some s
    | _ :: _, 0 => none
    | u :: queue, limit + 1 => do
      let ts ← dag.get? u
      let s ← ts.foldlM (follow? u) { s with queue }
      run? dag limit s

end Countdown

/-- How many arcs a vertex waits for. -/
def awaits : List Waiting → Nat → Nat
  | [], _ => 0
  | w :: rest, v => if w.vertex = v then w.count else awaits rest v

/-- Members that wait, each once and for some arc. -/
structure Patient (ws : List Waiting) : Prop where
  distinct : (ws.map (·.vertex)).Nodup
  positive : ∀ w ∈ ws, 0 < w.count

theorem awaits_of_not_mem {ws : List Waiting} {v : Nat} (h : v ∉ ws.map (·.vertex)) :
    awaits ws v = 0 := by
  induction ws with
  | nil => rfl
  | cons w rest ih =>
    rw [List.map_cons, List.mem_cons, not_or] at h
    rw [awaits, if_neg (Ne.symm h.1), ih h.2]

theorem awaits_map (count : Nat → Nat) (vs : List Nat) (v : Nat) :
    awaits (vs.map fun u => ⟨u, count u⟩) v = if v ∈ vs then count v else 0 := by
  induction vs with
  | nil => rfl
  | cons u vs ih =>
    rw [List.map_cons, awaits, ih]
    by_cases hu : u = v
    · simp [hu]
    · simp [hu, Ne.symm hu]

theorem sublist_arrive (v : Nat) (ws : List Waiting) :
    ((arrive v ws).2.map (·.vertex)).Sublist (ws.map (·.vertex)) := by
  induction ws with
  | nil => exact List.Sublist.refl _
  | cons w rest ih =>
    rw [arrive]
    split
    · next hw =>
      split
      · exact List.sublist_cons_self _ _
      · rw [List.map_cons, List.map_cons, hw]
    · exact ih.cons_cons _

namespace Patient

variable {ws : List Waiting} {w : Waiting} {rest : List Waiting} {i v : Nat}

theorem tail (h : Patient (w :: rest)) : Patient rest :=
  ⟨(List.nodup_cons.mp h.distinct).2, fun x hx => h.positive x (List.mem_cons_of_mem _ hx)⟩

theorem arrived (h : Patient ws) (v : Nat) : Patient (arrive v ws).2 := by
  refine ⟨h.distinct.sublist (sublist_arrive v ws), ?_⟩
  induction ws with
  | nil => exact h.positive
  | cons w rest ih =>
    rw [arrive]
    split
    · split
      · exact h.tail.positive
      · exact List.forall_mem_cons.mpr ⟨by simp only; omega, h.tail.positive⟩
    · exact List.forall_mem_cons.mpr ⟨h.positive w List.mem_cons_self, ih h.tail⟩

/-- An arc that comes is the last one into its target if that awaits one arc. -/
theorem arrive_iff (h : Patient ws) : (arrive v ws).1 = true ↔ awaits ws v = 1 := by
  induction ws with
  | nil => simp [arrive, awaits]
  | cons w rest ih =>
    have hpos := h.positive w List.mem_cons_self
    rw [arrive, awaits]
    split
    · split
      · exact iff_of_true rfl (by omega)
      · exact iff_of_false Bool.false_ne_true (by omega)
    · exact ih h.tail

/-- The target awaits one arc less then. -/
theorem awaits_arrive (h : Patient ws) :
    awaits (arrive v ws).2 i = if i = v then awaits ws v - 1 else awaits ws i := by
  induction ws with
  | nil => simp [arrive, awaits]
  | cons w rest ih =>
    have hout : awaits rest w.vertex = 0 := awaits_of_not_mem (List.nodup_cons.mp h.distinct).1
    rw [arrive]
    by_cases hw : w.vertex = v
    · subst hw
      rw [if_pos rfl]
      split
      · by_cases hi : i = w.vertex
        · rw [if_pos hi, hi, hout, awaits, if_pos rfl]
          omega
        · rw [if_neg hi, awaits, if_neg (Ne.symm hi)]
      · by_cases hi : i = w.vertex
        · rw [if_pos hi, hi, awaits, if_pos rfl, awaits, if_pos rfl]
        · rw [if_neg hi, awaits, if_neg (Ne.symm hi), awaits, if_neg (Ne.symm hi)]
    · rw [if_neg hw, awaits, ih h.tail, awaits, awaits, if_neg hw]
      by_cases hi : w.vertex = i
      · rw [if_pos hi, if_pos hi, if_neg fun he => hw (hi.trans he)]
      · rw [if_neg hi, if_neg hi]

end Patient

theorem Ranking.follow_eq_arrive (u : Nat) (r : Ranking) (v : Nat) : r.follow u v =
    { queue := if (arrive v r.waiting).1 then r.queue ++ [v] else r.queue
      waiting := (arrive v r.waiting).2
      rank := fun i => if i = v then max (r.rank v) (r.rank u + 1) else r.rank i } := by
  unfold follow
  split <;> next h => simp [h]

namespace Countdown

variable {keys : List Nat} {s : Countdown} {r : Ranking} {u v limit : Nat} {targets : Nat → List Nat}

/-- A countdown in step with a ranking. Members that wait for no arc have no count above zero. -/
structure InStep (keys : List Nat) (s : Countdown) (r : Ranking) : Prop where
  queue : s.queue = r.queue
  rank : s.rank = ⟨keys, r.rank⟩
  degree : ∃ d : Nat → Int, s.degree = ⟨keys, d⟩ ∧ ∀ v, (d v).toNat = awaits r.waiting v
  queued : ∀ v ∈ r.queue, v ∈ keys
  patient : Patient r.waiting

namespace InStep

/-- Following an arc keeps step: the count that falls to zero is that of a vertex which awaited this
arc alone. -/
theorem follow (h : s.InStep keys r) (hu : u ∈ keys) (hv : v ∈ keys) :
    ∃ s', Countdown.follow? u s v = some s' ∧ s'.InStep keys (r.follow u v) := by
  obtain ⟨queue, degree, rank⟩ := s
  obtain ⟨rfl, rfl, ⟨d, rfl, hd⟩, hqueued, hpatient⟩ := h
  have hlast : d v - 1 = 0 ↔ (arrive v r.waiting).1 = true := by
    rw [hpatient.arrive_iff, ← hd]
    omega
  have hfollow : Countdown.follow? u ⟨r.queue, ⟨keys, d⟩, ⟨keys, r.rank⟩⟩ v =
      some ⟨if d v - 1 = 0 then r.queue ++ [v] else r.queue,
        ⟨keys, fun i => if i = v then d v - 1 else d i⟩,
        ⟨keys, fun i => if i = v then max (r.rank v) (r.rank u + 1) else r.rank i⟩⟩ := by
    simp only [Countdown.follow?, Table.get?_eq hu, Table.change?_eq hv, Table.get?_eq hv, if_true,
      Option.bind_eq_bind, Option.bind_some]
  refine ⟨_, hfollow, ?_⟩
  rw [r.follow_eq_arrive]
  refine ⟨by simp only [hlast], rfl, ⟨_, rfl, fun i => ?_⟩, ?_, hpatient.arrived v⟩
  · rw [hpatient.awaits_arrive, ← hd v, ← hd i]
    split <;> omega
  · intro x hx
    simp only at hx
    split at hx
    · rcases List.mem_append.mp hx with hx | hx
      · exact hqueued x hx
      · rwa [List.mem_singleton.mp hx]
    · exact hqueued x hx

theorem foldl_follow {vs : List Nat} (h : s.InStep keys r) (hu : u ∈ keys)
    (hvs : ∀ v ∈ vs, v ∈ keys) : ∃ s', vs.foldlM (Countdown.follow? u) s = some s' ∧
      s'.InStep keys (vs.foldl (Ranking.follow u) r) := by
  induction vs generalizing s r with
  | nil => exact ⟨s, rfl, h⟩
  | cons v vs ih =>
    obtain ⟨hv, hvs⟩ := List.forall_mem_cons.mp hvs
    obtain ⟨s₁, hfollow, h₁⟩ := h.follow hu hv
    obtain ⟨s₂, hfold, h₂⟩ := ih h₁ hvs
    refine ⟨s₂, ?_, h₂⟩
    rw [List.foldlM_cons, hfollow, Option.bind_eq_bind, Option.bind_some, hfold]

/-- Every round leaves fewer that are queued or wait, so this many are enough. -/
theorem run (h : s.InStep keys r) (htargets : ∀ u, ∀ v ∈ targets u, v ∈ keys)
    (hlimit : r.size ≤ limit) : ∃ s', Countdown.run? ⟨keys, targets⟩ limit s = some s' ∧
      s'.InStep keys (r.run targets) := by
  fun_induction Ranking.run targets r generalizing s limit with
  | case1 r hq =>
    refine ⟨s, ?_, h⟩
    unfold Countdown.run?
    simp only [h.queue, hq]
  | case2 r u queue hq ih =>
    have hsize : r.size = queue.length + 1 + r.waiting.length := by rw [Ranking.size, hq]; rfl
    obtain ⟨limit, rfl⟩ : ∃ l, limit = l + 1 := ⟨limit - 1, by omega⟩
    have hu : u ∈ keys := h.queued u (by rw [hq]; exact List.mem_cons_self)
    have hpop : InStep keys { s with queue } { r with queue } :=
      ⟨rfl, h.rank, h.degree,
        fun v hv => h.queued v (by rw [hq]; exact List.mem_cons_of_mem _ hv), h.patient⟩
    obtain ⟨s₁, hfold, h₁⟩ := hpop.foldl_follow hu (htargets u)
    obtain ⟨s₂, hrun, h₂⟩ := @ih s₁ limit h₁ (by
      rw [Ranking.size_foldl_follow, Ranking.size]
      simp only
      omega)
    refine ⟨s₂, ?_, h₂⟩
    unfold Countdown.run?
    simp only [h.queue, hq, Table.get?_eq hu, hfold, hrun, Option.bind_eq_bind, Option.bind_some]

end InStep

/-- A member that is queued twice brings the count of its target below zero. -/
example : (run? ⟨[0, 1], fun u => if u = 0 then [1] else []⟩ 3
    ⟨[0, 0], ⟨[0, 1], fun v => if v = 1 then 1 else 0⟩, ⟨[0, 1], fun _ => 0⟩⟩).map
      (fun s => (s.queue, s.degree.value 1, s.rank.value 1)) = some ([], -1, 1) := by decide

end Countdown

/-- A search that has found all members and keeps arcs between them, each once. -/
structure Search.Covers (members : List Nat) (s : Search) : Prop where
  found : s.found.Perm members
  once : s.dag.Nodup
  ends : ∀ a ∈ s.dag, a.1 ∈ members ∧ a.2 ∈ members

namespace Component

variable {c : Component} {s : Search} {keys : List Nat}

theorem awaits_initialRanking (hends : ∀ a ∈ s.dag, a.2 ∈ c.members) (v : Nat) :
    awaits (c.initialRanking s).waiting v = s.dag.countP (·.2 == v) := by
  rw [initialRanking, awaits_map fun v => s.dag.countP (·.2 == v)]
  split
  · rfl
  · next hv =>
    rw [List.mem_filter, List.mem_eraseDups] at hv
    refine (Nat.eq_zero_of_not_pos fun hpos => hv ⟨?_, by simpa using Nat.ne_of_gt hpos⟩).symm
    obtain ⟨a, ha, hav⟩ := List.countP_pos_iff.mp hpos
    exact beq_iff_eq.mp hav ▸ hends a ha

theorem patient_initialRanking (c : Component) (s : Search) :
    Patient (c.initialRanking s).waiting := by
  constructor
  · rw [initialRanking, List.map_map]
    exact (List.map_id' _).symm ▸ (nodup_eraseDups c.members).filter _
  · intro w hw
    obtain ⟨v, hv, rfl⟩ := List.mem_map.mp hw
    exact Nat.pos_of_ne_zero (by simpa using (List.mem_filter.mp hv).2)

/-- Members may repeat in the queue, not among those who wait. -/
theorem size_initialRanking_le (c : Component) (s : Search) :
    (c.initialRanking s).size ≤ c.members.length := by
  have hsubset : c.members.eraseDups.filter (fun v => s.dag.countP (·.2 == v) != 0) ⊆
      c.members.filter fun v => s.dag.countP (·.2 == v) != 0 :=
    List.filter_subset _ fun v hv => List.mem_eraseDups.mp hv
  have hle := (List.subperm_of_subset ((nodup_eraseDups c.members).filter _) hsubset).length_le
  have hparts := (List.filter_append_perm (fun v => s.dag.countP (·.2 == v) == 0) c.members).length_eq
  rw [List.length_append] at hparts
  simp only [Ranking.size, initialRanking, List.length_mergeSort, List.length_map]
  simp only [bne] at hle ⊢
  omega

/-- Ranks members, repeated or not, from the counts of the kept arcs into them. -/
def rankFrom? (c : Component) (s : Trace) (degree : Table Int) : Option (Table Nat) := do
  let free ← degree.select? (· == 0) c.members
  let queue ← sortBy? s.found.idxOf? free
  let done ← Countdown.run? s.dag c.members.length ⟨queue, degree, ⟨s.dag.keys, fun _ => 0⟩⟩
  some done.rank

/-- The countdown ends within as many rounds as there are members, and ranks them like the ranking. -/
theorem rankFrom?_eq (hkeys : ∀ v, v ∈ keys ↔ v ∈ c.members) (hfound : ∀ v ∈ c.members, v ∈ s.found)
    (hends : ∀ a ∈ s.dag, a.2 ∈ c.members) :
    c.rankFrom? (s.trace keys) ⟨keys, fun v => s.dag.countP (·.2 == v)⟩ =
      some ⟨keys, ((c.initialRanking s).run (keptTargets s)).rank⟩ := by
  have hfree : (c.members.filter fun v => (s.dag.countP (·.2 == v) : Int) == 0) =
      c.members.filter fun v => s.dag.countP (·.2 == v) == 0 := by
    refine List.filter_congr fun v _ => ?_
    rw [Bool.eq_iff_iff, beq_iff_eq, beq_iff_eq]
    exact Int.natCast_eq_zero
  have hqueue : sortBy? s.found.idxOf? (c.members.filter fun v => s.dag.countP (·.2 == v) == 0) =
      some (c.initialRanking s).queue :=
    sortBy?_eq fun v hv => idxOf?_eq_idxOf (hfound v (List.mem_filter.mp hv).1)
  have hstart : Countdown.InStep keys ⟨(c.initialRanking s).queue,
      ⟨keys, fun v => s.dag.countP (·.2 == v)⟩, ⟨keys, fun _ => 0⟩⟩ (c.initialRanking s) := by
    refine ⟨rfl, rfl, ⟨_, rfl, fun v => ?_⟩, fun v hv => ?_, c.patient_initialRanking s⟩
    · rw [awaits_initialRanking hends, Int.toNat_natCast]
    · exact (hkeys v).mpr (List.mem_filter.mp (List.mem_mergeSort.mp hv)).1
  have htargets : ∀ u, ∀ v ∈ keptTargets s u, v ∈ keys :=
    fun u v hv => (hkeys v).mpr (hends (u, v) (mem_keptTargets.mp hv))
  obtain ⟨done, hrun, hdone⟩ := hstart.run htargets (c.size_initialRanking_le s)
  simp only [rankFrom?, Search.trace, Table.select?_eq fun v hv => (hkeys v).mpr hv, hfree, hqueue,
    hrun, hdone.rank, Option.bind_eq_bind, Option.bind_some]

/-- Ranks the members of a component that was searched. -/
def rank? (c : Component) (s : Trace) : Option (Table Nat) := do
  let degree ← (s.dag.keys.flatMap s.dag.value).foldlM (fun t v => t.change? v (· + 1))
    (⟨c.members, fun _ => 0⟩ : Table Int)
  let free ← degree.select? (· == 0) c.members
  let queue ← sortBy? s.found.idxOf? free
  let done ← Countdown.run? s.dag c.members.length ⟨queue, degree, ⟨c.members, fun _ => 0⟩⟩
  some done.rank

/-- The arcs from all members are all arcs. -/
theorem flatMap_filter_perm (hmembers : c.members.Nodup) (hs : s.Covers c.members) :
    (c.members.flatMap fun u => s.dag.filter (·.1 == u)).Perm s.dag := by
  have hnodup : (c.members.flatMap fun u => s.dag.filter (·.1 == u)).Nodup := by
    refine List.nodup_flatMap.mpr ⟨fun u _ => hs.once.filter _, hmembers.imp ?_⟩
    intro u v huv a hu hv
    simp only [List.mem_filter, beq_iff_eq] at hu hv
    exact huv (hu.2.symm.trans hv.2)
  refine (List.perm_ext_iff_of_nodup hnodup hs.once).mpr fun a => ?_
  simp only [List.mem_flatMap, List.mem_filter, beq_iff_eq]
  exact ⟨fun ⟨u, _, ha, _⟩ => ha, fun ha => ⟨a.1, (hs.ends a ha).1, ha, rfl⟩⟩

theorem flatMap_keptTargets_perm (hmembers : c.members.Nodup) (hs : s.Covers c.members) :
    (c.members.flatMap (keptTargets s)).Perm (s.dag.map (·.2)) := by
  have hmap := (flatMap_filter_perm hmembers hs).map (·.2)
  rwa [List.map_flatMap] at hmap

/-- Arc by arc, the members get the counts of the kept arcs into them. -/
theorem foldlM_count_keptTargets (hmembers : c.members.Nodup) (hs : s.Covers c.members) :
    (c.members.flatMap (keptTargets s)).foldlM (fun t v => t.change? v (· + 1))
      (⟨c.members, fun _ => 0⟩ : Table Int) =
        some ⟨c.members, fun v => s.dag.countP (·.2 == v)⟩ := by
  have hperm := flatMap_keptTargets_perm hmembers hs
  have hcount : ∀ v, (c.members.flatMap (keptTargets s)).count v = s.dag.countP (·.2 == v) := by
    intro v
    rw [hperm.count_eq, List.count_eq_countP, List.countP_map]
    rfl
  have hkeys : ∀ v ∈ c.members.flatMap (keptTargets s), v ∈ c.members := by
    intro v hv
    obtain ⟨a, ha, rfl⟩ := List.mem_map.mp (hperm.mem_iff.mp hv)
    exact (hs.ends a ha).2
  simp only [Table.foldlM_count_eq hkeys, hcount, Int.zero_add]

theorem Closed.covers (hc : c.Closed) : c.search.Covers c.members :=
  ⟨found_perm hc.distinct, c.search_spec.2.1, hc.dag_ends⟩

theorem rank?_eq (hc : c.Closed) : c.rank? (c.search.trace c.members) =
    some ⟨c.members, ((c.initialRanking c.search).run (keptTargets c.search)).rank⟩ := by
  rw [rank?, Search.trace, foldlM_count_keptTargets hc.distinct hc.covers, Option.bind_eq_bind,
    Option.bind_some]
  exact rankFrom?_eq (fun _ => Iff.rfl) (fun _ => mem_found.mpr) fun a ha => (hc.dag_ends a ha).2

end Component

end ScriptFlow
