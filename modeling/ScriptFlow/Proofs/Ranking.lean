import ScriptFlow.Layout.Rank
import ScriptFlow.Proofs.Discovery
import Mathlib.Order.WellFounded

/-! Rows by longest ways. While members are taken one by one, the arcs that were not followed yet are
those from members that are queued or waiting, and a waiting member counts the ones into it. Where no
way leads round nobody waits in the end, so every arc was followed: it leads at least one row down,
and whoever is not in the first row is one row below a predecessor. -/

namespace ScriptFlow

theorem arrive_append {v : Nat} {l₁ l₂ : List Waiting} {w : Waiting}
    (hv : v ∉ l₁.map (·.vertex)) (hw : w.vertex = v) :
    arrive v (l₁ ++ w :: l₂) =
      if w.count ≤ 1 then (true, l₁ ++ l₂) else (false, l₁ ++ ⟨v, w.count - 1⟩ :: l₂) := by
  induction l₁ with
  | nil => simp [arrive, hw]
  | cons x l₁ ih =>
    simp only [List.map_cons, List.mem_cons, not_or] at hv
    rw [List.cons_append, arrive, if_neg (Ne.symm hv.1), ih hv.2]
    split <;> rfl

namespace Ranking

variable {dag left : List (Nat × Nat)} {r : Ranking} {u v : Nat}

/-- The members that are queued or waiting. -/
def vertices (r : Ranking) : List Nat := r.queue ++ r.waiting.map (·.vertex)

/-- A ranking on its way, with the arcs that are `left` to follow. -/
structure Sound (dag left : List (Nat × Nat)) (r : Ranking) : Prop where
  subset : left ⊆ dag
  once : left.Nodup
  distinct : r.vertices.Nodup
  counts : ∀ w ∈ r.waiting, w.count = left.countP (·.2 == w.vertex) ∧ 0 < w.count
  awaited : ∀ a ∈ left, a.2 ∈ r.waiting.map (·.vertex)
  followed : ∀ a ∈ dag, a ∉ left → a.1 ∉ r.vertices
  down : ∀ a ∈ dag, a ∉ left → r.rank a.1 + 1 ≤ r.rank a.2
  tight : ∀ v, r.rank v = 0 ∨ ∃ a ∈ dag, a ∉ left ∧ a.2 = v ∧ r.rank v = r.rank a.1 + 1

/-- What a followed arc does to the queue and to the members that wait. -/
theorem follow_eq {l₁ l₂ : List Waiting} {w : Waiting} (hr : r.waiting = l₁ ++ w :: l₂)
    (hv : v ∉ l₁.map (·.vertex)) (hw : w.vertex = v) : r.follow u v =
      { queue := if w.count ≤ 1 then r.queue ++ [v] else r.queue
        waiting := if w.count ≤ 1 then l₁ ++ l₂ else l₁ ++ ⟨v, w.count - 1⟩ :: l₂
        rank := fun i => if i = v then max (r.rank v) (r.rank u + 1) else r.rank i } := by
  unfold follow
  rw [hr, arrive_append hv hw]
  by_cases hc : w.count ≤ 1 <;> simp [hc]

theorem rank_follow (r : Ranking) (u v x : Nat) : (r.follow u v).rank x =
    if x = v then max (r.rank v) (r.rank u + 1) else r.rank x := by
  unfold follow
  split <;> rfl

namespace Sound

/-- The place of a member that waits, and that it waits nowhere else. -/
theorem split (h : r.Sound dag left) (hv : v ∈ r.waiting.map (·.vertex)) :
    ∃ l₁ w l₂, r.waiting = l₁ ++ w :: l₂ ∧ w.vertex = v ∧ v ∉ l₁.map (·.vertex) ∧
      v ∉ l₂.map (·.vertex) := by
  obtain ⟨w, hw, rfl⟩ := List.mem_map.mp hv
  obtain ⟨l₁, l₂, hsplit⟩ := List.append_of_mem hw
  have hnodup : (r.waiting.map (·.vertex)).Nodup := h.distinct.of_append_right
  rw [hsplit, List.map_append, List.map_cons, List.nodup_middle, List.nodup_cons,
    List.mem_append, not_or] at hnodup
  exact ⟨l₁, w, l₂, hsplit, rfl, hnodup.1⟩

/-- The source of an arc that was followed keeps its row while the next arc is followed. -/
theorem rank_follow_source (h : r.Sound dag ((u, v) :: left)) (hu : u ∉ r.vertices)
    {a : Nat × Nat} (ha : a ∈ dag) (hn : a ∉ left) : (r.follow u v).rank a.1 = r.rank a.1 := by
  have hv : v ∈ r.vertices := List.mem_append_right _ (h.awaited _ List.mem_cons_self)
  rw [rank_follow, if_neg]
  rintro rfl
  by_cases hau : a = (u, a.1)
  · rw [hau] at hv
    exact hu hv
  · exact h.followed a ha (by simp [hau, hn]) hv

/-- The same members are queued or waiting after an arc was followed. -/
theorem vertices_follow (h : r.Sound dag ((u, v) :: left)) :
    (r.follow u v).vertices.Perm r.vertices := by
  obtain ⟨l₁, w, l₂, hr, hw, hv, -⟩ := h.split (h.awaited _ List.mem_cons_self)
  rw [follow_eq hr hv hw, vertices, vertices, hr]
  split
  · simp only [List.map_append, List.map_cons, hw, List.append_assoc, List.singleton_append]
    exact List.perm_middle.symm.append_left _
  · simp only [List.map_append, List.map_cons, hw, List.Perm.refl]

theorem counts_follow (h : r.Sound dag ((u, v) :: left)) : ∀ w ∈ (r.follow u v).waiting,
    w.count = left.countP (·.2 == w.vertex) ∧ 0 < w.count := by
  obtain ⟨l₁, w, l₂, hr, rfl, hv₁, hv₂⟩ := h.split (h.awaited _ List.mem_cons_self)
  have hcounts := h.counts
  have hother : ∀ x ∈ l₁ ++ l₂, x.count = left.countP (·.2 == x.vertex) ∧ 0 < x.count := by
    intro x hx
    have hne : w.vertex ≠ x.vertex := by
      intro hwx
      rw [hwx] at hv₁ hv₂
      rcases List.mem_append.mp hx with hx | hx
      · exact hv₁ (List.mem_map_of_mem hx)
      · exact hv₂ (List.mem_map_of_mem hx)
    have hmem : x ∈ r.waiting := by
      rw [hr]
      exact (List.sublist_cons_self w l₂).append_left l₁ |>.subset hx
    simpa [List.countP_cons, hne] using hcounts x hmem
  rw [follow_eq hr hv₁ rfl]
  split
  · exact hother
  · simp only [List.mem_append, List.mem_cons] at hother ⊢
    rintro x (hx | rfl | hx)
    · exact hother x (Or.inl hx)
    · have hcount := (hcounts w (by simp [hr])).1
      rw [List.countP_cons_of_pos (by simp)] at hcount
      refine ⟨?_, ?_⟩ <;> simp only <;> omega
    · exact hother x (Or.inr hx)

theorem awaited_follow (h : r.Sound dag ((u, v) :: left)) :
    ∀ a ∈ left, a.2 ∈ (r.follow u v).waiting.map (·.vertex) := by
  obtain ⟨l₁, w, l₂, hr, rfl, hv, -⟩ := h.split (h.awaited _ List.mem_cons_self)
  intro a ha
  have hmem := h.awaited a (List.mem_cons_of_mem _ ha)
  rw [hr] at hmem
  rw [follow_eq hr hv rfl]
  split
  · next hc =>
    -- the followed arc was the last one into the vertex
    have hcount := (h.counts w (by simp [hr])).1
    rw [List.countP_cons_of_pos (by simp)] at hcount
    have hzero : left.countP (·.2 == w.vertex) = 0 := by omega
    have hne : a.2 ≠ w.vertex := by simpa using List.countP_eq_zero.mp hzero a ha
    simpa [hne] using hmem
  · simpa using hmem

/-- Following an arc. -/
theorem follow (h : r.Sound dag ((u, v) :: left)) (hu : u ∉ r.vertices) :
    (r.follow u v).Sound dag left where
  subset a ha := h.subset (List.mem_cons_of_mem _ ha)
  once := h.once.of_cons
  distinct := h.vertices_follow.nodup_iff.mpr h.distinct
  counts := h.counts_follow
  awaited := h.awaited_follow
  followed a ha hn hmem := by
    rw [h.vertices_follow.mem_iff] at hmem
    by_cases hauv : a = (u, v)
    · exact hu (by rwa [hauv] at hmem)
    · exact h.followed a ha (by simp [hauv, hn]) hmem
  down a ha hn := by
    rw [h.rank_follow_source hu ha hn, rank_follow]
    by_cases hauv : a = (u, v)
    · rw [hauv, if_pos rfl]
      exact Nat.le_max_right _ _
    · have hdown := h.down a ha (by simp [hauv, hn])
      split
      · next hav => exact Nat.le_trans (hav ▸ hdown) (Nat.le_max_left _ _)
      · exact hdown
  tight x := by
    have huv : (u, v) ∈ dag := h.subset List.mem_cons_self
    have hnuv : (u, v) ∉ left := (List.nodup_cons.mp h.once).1
    have hold : r.rank x = 0 ∨ ∃ a ∈ dag, a ∉ left ∧ a.2 = x ∧
        r.rank x = (r.follow u v).rank a.1 + 1 := by
      refine (h.tight x).imp_right ?_
      rintro ⟨a, ha, hn, hax, hrank⟩
      have hn' : a ∉ left := fun hm => hn (List.mem_cons_of_mem _ hm)
      exact ⟨a, ha, hn', hax, by rw [h.rank_follow_source hu ha hn', hrank]⟩
    by_cases hx : x = v
    · rw [hx] at hold ⊢
      rw [rank_follow, if_pos rfl]
      rcases Nat.le_total (r.rank v) (r.rank u + 1) with hle | hle
      · rw [Nat.max_eq_right hle]
        exact Or.inr ⟨(u, v), huv, hnuv, rfl, by rw [h.rank_follow_source hu huv hnuv]⟩
      · rwa [Nat.max_eq_left hle]
    · rwa [rank_follow, if_neg hx]

theorem foldl_follow {as : List (Nat × Nat)} (h : r.Sound dag (as ++ left))
    (has : ∀ a ∈ as, a.1 = u) (hu : u ∉ r.vertices) :
    ((as.map (·.2)).foldl (Ranking.follow u) r).Sound dag left ∧
      ((as.map (·.2)).foldl (Ranking.follow u) r).vertices.Perm r.vertices := by
  induction as generalizing r with
  | nil => exact ⟨h, List.Perm.refl _⟩
  | cons a as ih =>
    obtain ⟨x, v⟩ := a
    obtain rfl : x = u := has _ List.mem_cons_self
    have hp := h.vertices_follow
    obtain ⟨hs', hp'⟩ := ih (h.follow hu) (fun a ha => has a (List.mem_cons_of_mem _ ha))
      (fun hm => hu (hp.mem_iff.mp hm))
    exact ⟨hs', hp'.trans hp⟩

theorem perm {left' : List (Nat × Nat)} (h : r.Sound dag left) (hp : left'.Perm left) :
    r.Sound dag left' where
  subset a ha := h.subset (hp.mem_iff.mp ha)
  once := hp.nodup_iff.mpr h.once
  distinct := h.distinct
  counts w hw := by
    rw [hp.countP_eq]
    exact h.counts w hw
  awaited a ha := h.awaited a (hp.mem_iff.mp ha)
  followed a ha hn := h.followed a ha (fun hm => hn (hp.mem_iff.mpr hm))
  down a ha hn := h.down a ha (fun hm => hn (hp.mem_iff.mpr hm))
  tight v := by
    simp only [hp.mem_iff]
    exact h.tight v

end Sound

/-- The arcs from members that are queued or waiting. -/
def ahead (dag : List (Nat × Nat)) (r : Ranking) : List (Nat × Nat) :=
  dag.filter (r.vertices.contains ·.1)

theorem ahead_congr {r' : Ranking} (h : r.vertices.Perm r'.vertices) : ahead dag r = ahead dag r' := by
  refine List.filter_congr fun a _ => ?_
  rw [Bool.eq_iff_iff, List.contains_iff_mem, List.contains_iff_mem]
  exact h.mem_iff

theorem vertices_of_queue {queue : List Nat} (hq : r.queue = u :: queue) :
    r.vertices = u :: ({ r with queue } : Ranking).vertices := by
  simp [vertices, hq]

/-- The arcs ahead are those from the first member of the queue and those ahead of the others. -/
theorem Sound.ahead_perm {queue : List Nat} (hdag : dag.Nodup) (h : r.Sound dag (ahead dag r))
    (hq : r.queue = u :: queue) :
    (dag.filter (·.1 == u) ++ ahead dag { r with queue }).Perm (ahead dag r) := by
  have hvertices := vertices_of_queue hq
  have hdistinct := h.distinct
  rw [hvertices, List.nodup_cons] at hdistinct
  have hnodup : (dag.filter (·.1 == u) ++ ahead dag { r with queue }).Nodup := by
    refine List.nodup_append.mpr ⟨hdag.filter _, hdag.filter _, ?_⟩
    intro a ha b hb hab
    simp only [ahead, List.mem_filter, beq_iff_eq, List.contains_iff_mem] at ha hb
    exact hdistinct.1 (ha.2 ▸ hab ▸ hb.2)
  refine (List.perm_ext_iff_of_nodup hnodup h.once).mpr fun a => ?_
  simp only [ahead, List.mem_append, List.mem_filter, beq_iff_eq, List.contains_iff_mem,
    hvertices, List.mem_cons]
  tauto

/-- Before the arcs from a member are followed, it leaves the queue. -/
theorem Sound.pop {queue : List Nat} (hdag : dag.Nodup) (h : r.Sound dag (ahead dag r))
    (hq : r.queue = u :: queue) :
    ({ r with queue } : Ranking).Sound dag (dag.filter (·.1 == u) ++ ahead dag { r with queue }) ∧
      u ∉ ({ r with queue } : Ranking).vertices := by
  have hvertices := vertices_of_queue hq
  have hdistinct := h.distinct
  rw [hvertices, List.nodup_cons] at hdistinct
  have hpopped : ({ r with queue } : Ranking).Sound dag (ahead dag r) :=
    ⟨h.subset, h.once, hdistinct.2, h.counts, h.awaited,
      fun a ha hn hm => h.followed a ha hn (by rw [hvertices]; exact List.mem_cons_of_mem _ hm),
      h.down, h.tight⟩
  exact ⟨hpopped.perm (h.ahead_perm hdag hq), hdistinct.1⟩

/-- Taking a member follows all arcs from it. -/
theorem Sound.take {queue : List Nat} (hdag : dag.Nodup) (h : r.Sound dag (ahead dag r))
    (hq : r.queue = u :: queue) :
    let r' := ((dag.filter (·.1 == u)).map (·.2)).foldl (Ranking.follow u) { r with queue }
    r'.Sound dag (ahead dag r') ∧ r'.vertices.Perm ({ r with queue } : Ranking).vertices := by
  obtain ⟨hpopped, hu⟩ := h.pop hdag hq
  obtain ⟨hs, hp⟩ := hpopped.foldl_follow (u := u) (by simp) hu
  rw [← ahead_congr hp] at hs
  exact ⟨hs, hp⟩

/-- Members are taken in some order until the queue is empty. -/
inductive Takes (targets : Nat → List Nat) : Ranking → List Nat → Ranking → Prop
  | stop {r : Ranking} : r.queue = [] → Takes targets r [] r
  | take {r done : Ranking} {u : Nat} {queue us : List Nat} : r.queue = u :: queue →
      Takes targets ((targets u).foldl (follow u) { r with queue }) us done →
      Takes targets r (u :: us) done

theorem exists_takes (targets : Nat → List Nat) (r : Ranking) :
    ∃ us, Takes targets r us (run targets r) := by
  fun_induction run targets r with
  | case1 r hq => exact ⟨[], .stop hq⟩
  | case2 r u queue hq ih =>
    obtain ⟨us, h⟩ := ih
    exact ⟨u :: us, .take hq h⟩

theorem Sound.takes {done : Ranking} {us : List Nat} (hdag : dag.Nodup)
    (h : r.Sound dag (ahead dag r))
    (ht : Takes (fun u => (dag.filter (·.1 == u)).map (·.2)) r us done) :
    done.Sound dag (ahead dag done) ∧ done.queue = [] ∧
      r.vertices.Perm (us ++ done.vertices) := by
  induction ht with
  | stop hq => exact ⟨h, hq, List.Perm.refl _⟩
  | take hq _ ih =>
    obtain ⟨hs, hp⟩ := h.take hdag hq
    obtain ⟨hdone, hqueue, hperm⟩ := ih hs
    rw [vertices_of_queue hq]
    exact ⟨hdone, hqueue, (hp.symm.trans hperm).cons _⟩

/-- With an empty queue nobody waits, where no way leads round. -/
theorem Sound.vertices_eq_nil (h : r.Sound dag (ahead dag r)) (hq : r.queue = [])
    (hwf : WellFounded fun u v => (u, v) ∈ dag) : r.vertices = [] := by
  have hvertices : r.vertices = r.waiting.map (·.vertex) := by
    rw [vertices, hq, List.nil_append]
  have hnone : ∀ v, v ∉ r.vertices := by
    intro v
    induction v using hwf.induction with
    | h v ih =>
      intro hv
      rw [hvertices] at hv
      obtain ⟨w, hw, rfl⟩ := List.mem_map.mp hv
      obtain ⟨hcount, hpos⟩ := h.counts w hw
      rw [hcount, List.countP_pos_iff] at hpos
      obtain ⟨a, ha, haw⟩ := hpos
      obtain ⟨hdag, hsource⟩ := List.mem_filter.mp ha
      have haw : a.2 = w.vertex := by simpa using haw
      exact ih a.1 (haw ▸ hdag) (List.contains_iff_mem.mp hsource)
  exact List.eq_nil_iff_forall_not_mem.mpr hnone

theorem ahead_of_nil (h : r.vertices = []) : ahead dag r = [] := by
  rw [ahead, h]
  exact List.filter_eq_nil_iff.mpr (by simp)

end Ranking

namespace Component

variable {c : Component} {s : Search}

theorem waiting_initialRanking (s : Search) (hmembers : c.members.Nodup) :
    (c.initialRanking s).waiting.map (·.vertex) =
      c.members.filter (fun v => s.dag.countP (·.2 == v) != 0) := by
  simp [initialRanking, eraseDups_of_nodup hmembers, Function.comp_def]

/-- Every member is queued or waits. -/
theorem vertices_initialRanking (s : Search) (hmembers : c.members.Nodup) :
    (c.initialRanking s).vertices.Perm c.members := by
  rw [Ranking.vertices, waiting_initialRanking s hmembers]
  refine ((List.mergeSort_perm _ _).append_right _).trans ?_
  exact List.filter_append_perm (fun v => s.dag.countP (·.2 == v) == 0) c.members

/-- No arc was followed yet. -/
theorem ahead_initialRanking (hmembers : c.members.Nodup) (hends : ∀ a ∈ s.dag, a.1 ∈ c.members) :
    Ranking.ahead s.dag (c.initialRanking s) = s.dag := by
  refine List.filter_eq_self.mpr fun a ha => ?_
  rw [List.contains_iff_mem, (vertices_initialRanking s hmembers).mem_iff]
  exact hends a ha

theorem sound_initialRanking (hmembers : c.members.Nodup) (hdag : s.dag.Nodup)
    (hends : ∀ a ∈ s.dag, a.1 ∈ c.members ∧ a.2 ∈ c.members) :
    (c.initialRanking s).Sound s.dag (Ranking.ahead s.dag (c.initialRanking s)) := by
  have hperm := vertices_initialRanking s hmembers
  rw [ahead_initialRanking hmembers fun a ha => (hends a ha).1]
  refine ⟨List.Subset.refl _, hdag, hperm.nodup_iff.mpr hmembers, ?_, ?_, ?_, ?_, fun v => Or.inl rfl⟩
  · intro w hw
    obtain ⟨v, hv, rfl⟩ := List.mem_map.mp hw
    have hne := (List.mem_filter.mp hv).2
    exact ⟨rfl, Nat.pos_of_ne_zero (by simpa using hne)⟩
  · intro a ha
    rw [waiting_initialRanking s hmembers, List.mem_filter]
    have hpos : 0 < s.dag.countP (·.2 == a.2) := List.countP_pos_iff.mpr ⟨a, ha, by simp⟩
    exact ⟨(hends a ha).2, by simpa using Nat.ne_of_gt hpos⟩
  · exact fun a ha hn => absurd ha hn
  · exact fun a ha hn => absurd ha hn

/-- Where no kept way leads round, every member is taken once and every kept arc is followed. -/
theorem run_initialRanking (hmembers : c.members.Nodup) (hdag : s.dag.Nodup)
    (hends : ∀ a ∈ s.dag, a.1 ∈ c.members ∧ a.2 ∈ c.members)
    (hwf : WellFounded fun u v => (u, v) ∈ s.dag) :
    ((c.initialRanking s).run (keptTargets s)).Sound s.dag [] ∧ ∃ us, us.Perm c.members ∧
      Ranking.Takes (keptTargets s) (c.initialRanking s) us
        ((c.initialRanking s).run (keptTargets s)) := by
  obtain ⟨us, htakes⟩ := (c.initialRanking s).exists_takes (keptTargets s)
  obtain ⟨hdone, hqueue, hperm⟩ := (sound_initialRanking hmembers hdag hends).takes hdag htakes
  have hnone := hdone.vertices_eq_nil hqueue hwf
  rw [Ranking.ahead_of_nil hnone] at hdone
  rw [hnone, List.append_nil] at hperm
  exact ⟨hdone, us, hperm.symm.trans (vertices_initialRanking s hmembers), htakes⟩

/-- Where no way leads round, every forward arc leads at least one row down, and every member that is
not in the first row stands one row below the source of some forward arc into it. -/
theorem exists_rank (hmembers : c.members.Nodup)
    (hends : ∀ a ∈ c.forward, a.1 ∈ c.members ∧ a.2 ∈ c.members)
    (hwf : WellFounded fun u v => (u, v) ∈ c.forward) :
    ∃ rank : Nat → Nat, c.ranks c.search = c.search.found.map (fun v => (v, rank v)) ∧
      (∀ a ∈ c.forward, rank a.1 + 1 ≤ rank a.2) ∧
      ∀ v, rank v = 0 ∨ ∃ a ∈ c.forward, a.2 = v ∧ rank v = rank a.1 + 1 := by
  have hdag : ∀ a, a ∈ c.search.dag ↔ a ∈ c.forward := fun a =>
    mem_dag_iff (fun a ha => (hends a ha).1) fun v hv =>
      hwf.transGen.irrefl.irrefl v hv
  obtain ⟨-, hnodup, -, -⟩ := c.search_spec
  obtain ⟨hdone, -⟩ := run_initialRanking hmembers hnodup
    (fun a ha => hends a ((hdag a).mp ha)) (by simpa only [hdag] using hwf)
  refine ⟨_, rfl, ?_, ?_⟩
  · intro a ha
    exact hdone.down a ((hdag a).mpr ha) List.not_mem_nil
  · intro v
    refine (hdone.tight v).imp_right ?_
    rintro ⟨a, ha, -, hav, hrank⟩
    exact ⟨a, (hdag a).mp ha, hav, hrank⟩

end Component

end ScriptFlow
