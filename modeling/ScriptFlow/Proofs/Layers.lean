import ScriptFlow.Proofs.DepthFirst
import ScriptFlow.Proofs.Ranking

/-! The layers of a component, cycles or not. The arcs that the search keeps are acyclic, the ranking
takes every member once, and the rank of a member is the length of the longest kept way that ends at
it. -/

namespace ScriptFlow

open Relation

/-- A way of so many arcs that ends at a vertex. -/
inductive Way (dag : List (Nat × Nat)) : Nat → Nat → Prop
  | start (v : Nat) : Way dag 0 v
  | step {k u v : Nat} : Way dag k u → (u, v) ∈ dag → Way dag (k + 1) v

namespace Ranking.Sound

variable {dag : List (Nat × Nat)} {r : Ranking} {k v : Nat}

/-- Once every arc was followed, no way is longer than the rank of its end. -/
theorem le_of_way (h : r.Sound dag []) (hway : Way dag k v) : k ≤ r.rank v := by
  induction hway with
  | start v => exact Nat.zero_le _
  | @step k u v _ huv ih =>
    have hdown : r.rank u + 1 ≤ r.rank v := h.down (u, v) huv List.not_mem_nil
    omega

theorem way (h : r.Sound dag []) (v : Nat) : Way dag (r.rank v) v := by
  induction hk : r.rank v generalizing v with
  | zero => exact .start v
  | succ k ih =>
    rcases h.tight v with hzero | ⟨a, ha, -, rfl, hrank⟩
    · omega
    · exact .step (ih a.1 (by omega)) ha

/-- Every smaller rank is that of some source of an arc. -/
theorem exists_rank_eq (h : r.Sound dag []) (hk : k < r.rank v) :
    ∃ a ∈ dag, r.rank a.1 = k := by
  induction hn : r.rank v using Nat.strongRecOn generalizing v with
  | ind n ih =>
    subst hn
    rcases h.tight v with hzero | ⟨a, ha, -, -, hrank⟩
    · omega
    · rcases Nat.lt_or_ge k (r.rank a.1) with hlt | hge
      · exact ih (r.rank a.1) (by omega) hlt rfl
      · exact ⟨a, ha, by omega⟩

/-- No rank is left out among the members. -/
theorem exists_mem_rank_eq {members : List Nat} (h : r.Sound dag [])
    (hends : ∀ a ∈ dag, a.1 ∈ members) (hv : v ∈ members) (hk : k ≤ r.rank v) :
    ∃ u ∈ members, r.rank u = k := by
  rcases Nat.lt_or_eq_of_le hk with hlt | rfl
  · obtain ⟨a, ha, hrank⟩ := h.exists_rank_eq hlt
    exact ⟨a.1, hends a ha, hrank⟩
  · exact ⟨v, hv, rfl⟩

end Ranking.Sound

namespace Component

variable {c : Component}

/-- A component in layers: the trees of its search, the order in which its members are taken and the
layer of each. -/
structure Layered (c : Component) (forest : SearchForest) (taken : List Nat) (rank : Nat → Nat) :
    Prop where
  /-- The search finds what a recursive search finds, and every member once. -/
  searched : Grows c.targets c.members (c.roots ++ c.members) forest []
  found : c.search.found = forest.preorder
  once : c.search.found.Perm c.members
  /-- A forward arc is dropped if it leads to its own source or to a vertex above it. -/
  kept : ∀ a, a ∈ c.search.dag ↔ a ∈ c.forward ∧ a.2 ≠ a.1 ∧ ¬ forest.Above a.2 a.1
  acyclic : ∀ v, ¬ TransGen (fun u v => (u, v) ∈ c.search.dag) v v
  whole : (∀ v, ¬ TransGen (fun u v => (u, v) ∈ c.forward) v v) →
    ∀ a, a ∈ c.search.dag ↔ a ∈ c.forward
  takes : Ranking.Takes (keptTargets c.search) (c.initialRanking c.search) taken
    ((c.initialRanking c.search).run (keptTargets c.search))
  taken : taken.Perm c.members
  ranks : c.ranks c.search = c.search.found.map fun v => (v, rank v)
  /-- A rank is the length of the longest kept way to its vertex. -/
  longest : ∀ v, Way c.search.dag (rank v) v ∧ ∀ k, Way c.search.dag k v → k ≤ rank v
  down : ∀ a ∈ c.search.dag, rank a.1 + 1 ≤ rank a.2
  used : ∀ v ∈ c.members, ∀ k ≤ rank v, ∃ u ∈ c.members, rank u = k

theorem exists_layered (hc : c.Closed) : ∃ forest taken rank, c.Layered forest taken rank := by
  obtain ⟨forest, hf⟩ := hc.exists_searched
  obtain ⟨-, hnodup, -, -⟩ := c.search_spec
  have hends := hc.dag_ends
  have hwf := hf.wellFounded hc
  obtain ⟨hsound, taken, htaken, htakes⟩ := run_initialRanking hc.distinct hnodup hends hwf
  refine ⟨forest, taken, _, hf.grown, hf.found, found_perm hc.distinct, hf.dag, ?_, ?_, htakes,
    htaken, rfl, fun v => ⟨hsound.way v, fun k hk => hsound.le_of_way hk⟩, ?_, ?_⟩
  · exact fun v hv => hwf.transGen.irrefl.irrefl v hv
  · exact fun hacyclic a => mem_dag_iff (fun a ha => (hc.ends a ha).1) hacyclic
  · exact fun a ha => hsound.down a ha List.not_mem_nil
  · exact fun v hv k hk => hsound.exists_mem_rank_eq (fun a ha => (hends a ha).1) hv hk

/-- A loop of two members with a way past it and an arc back to the start. -/
def looped : Component :=
  ⟨[0, 1, 2, 3], [0], [⟨0, 1, false⟩, ⟨1, 2, false⟩, ⟨2, 1, false⟩, ⟨0, 3, false⟩, ⟨1, 3, false⟩,
    ⟨2, 3, true⟩, ⟨3, 0, false⟩]⟩

theorem exists_layered_looped : looped.Closed ∧
    ∃ forest taken rank, looped.Layered forest taken rank := by
  have hclosed : looped.Closed := ⟨by decide, by decide⟩
  exact ⟨hclosed, exists_layered hclosed⟩

end Component

end ScriptFlow
