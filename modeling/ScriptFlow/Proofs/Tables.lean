import ScriptFlow.Layout.Rank
import ScriptFlow.Proofs.DepthFirst

/-! The search of a component once more, on tables that answer for their own keys only. Whatever is
looked up is a member, so no step fails, and the outcome is the same. -/

namespace ScriptFlow

/-- A table has a value for each of its keys. -/
structure Table (α : Type) where
  keys : List Nat
  value : Nat → α

namespace Table

variable {α : Type} {keys : List Nat} {f : Nat → α} {k : Nat}

def get? (t : Table α) (k : Nat) : Option α := if k ∈ t.keys then some (t.value k) else none

/-- Changes the value of a key. -/
def change? (t : Table α) (k : Nat) (f : α → α) : Option (Table α) :=
  if k ∈ t.keys then some { t with value := fun i => if i = k then f (t.value k) else t.value i }
  else none

theorem get?_eq (h : k ∈ keys) : (⟨keys, f⟩ : Table α).get? k = some (f k) := if_pos h

theorem change?_eq {g : α → α} (h : k ∈ keys) : (⟨keys, f⟩ : Table α).change? k g =
    some ⟨keys, fun i => if i = k then g (f k) else f i⟩ := if_pos h

/-- Lists of values grow by the second halves of some pairs, each at the key of its first half. -/
theorem foldlM_append_eq {f : Nat → List Nat} {ps : List (Nat × Nat)} (h : ∀ p ∈ ps, p.1 ∈ keys) :
    ps.foldlM (fun t p => t.change? p.1 (· ++ [p.2])) (⟨keys, f⟩ : Table (List Nat)) =
      some ⟨keys, fun k => f k ++ (ps.filter (·.1 == k)).map (·.2)⟩ := by
  induction ps generalizing f with
  | nil => simp
  | cons p ps ih =>
    obtain ⟨hp, hps⟩ := List.forall_mem_cons.mp h
    rw [List.foldlM_cons, change?_eq hp, Option.bind_eq_bind, Option.bind_some, ih hps]
    refine congrArg some (congrArg (Table.mk keys) (funext fun k => ?_))
    by_cases hk : k = p.1
    · subst hk
      simp
    · have hne : p.1 ≠ k := fun he => hk he.symm
      simp [hk, hne]

/-- Numbers count the keys that occur in a list. -/
theorem foldlM_count_eq {f : Nat → Int} {ks : List Nat} (h : ∀ k ∈ ks, k ∈ keys) :
    ks.foldlM (fun t k => t.change? k (· + 1)) (⟨keys, f⟩ : Table Int) =
      some ⟨keys, fun k => f k + ks.count k⟩ := by
  induction ks generalizing f with
  | nil => simp
  | cons k' ks ih =>
    obtain ⟨hk', hks⟩ := List.forall_mem_cons.mp h
    rw [List.foldlM_cons, change?_eq hk', Option.bind_eq_bind, Option.bind_some, ih hks]
    refine congrArg some (congrArg (Table.mk keys) (funext fun k => ?_))
    by_cases hk : k = k'
    · subst hk
      rw [if_pos rfl, List.count_cons_self]
      omega
    · rw [if_neg hk, List.count_cons_of_ne (fun he => hk he.symm)]

/-- Those of some keys whose value has a property. -/
def select? (t : Table α) (p : α → Bool) : List Nat → Option (List Nat)
  | [] => some []
  | k :: ks => do
    let a ← t.get? k
    let rest ← t.select? p ks
    some (if p a then k :: rest else rest)

theorem select?_eq {p : α → Bool} {ks : List Nat} (h : ∀ k ∈ ks, k ∈ keys) :
    (⟨keys, f⟩ : Table α).select? p ks = some (ks.filter fun k => p (f k)) := by
  induction ks with
  | nil => rfl
  | cons k ks ih =>
    obtain ⟨hk, hks⟩ := List.forall_mem_cons.mp h
    rw [select?, get?_eq hk, ih hks, List.filter_cons]
    rfl

end Table

/-- Sorts by numbers that are looked up. -/
def sortBy? (key : Nat → Option Nat) (vs : List Nat) : Option (List Nat) := do
  let ps ← vs.mapM fun v => (key v).map fun k => (v, k)
  some ((ps.mergeSort fun a b => a.2 ≤ b.2).map (·.1))

theorem mapM_eq_map {α β : Type} {f : α → Option β} {g : α → β} {as : List α}
    (h : ∀ a ∈ as, f a = some (g a)) : as.mapM f = some (as.map g) := by
  induction as with
  | nil => rfl
  | cons a as ih =>
    obtain ⟨ha, has⟩ := List.forall_mem_cons.mp h
    rw [List.mapM_cons, ha, ih has]
    rfl

theorem sortBy?_eq {key : Nat → Option Nat} {f : Nat → Nat} {vs : List Nat}
    (h : ∀ v ∈ vs, key v = some (f v)) :
    sortBy? key vs = some (vs.mergeSort fun u v => f u ≤ f v) := by
  have hpairs : vs.mapM (fun v => (key v).map fun k => (v, k)) = some (vs.map fun v => (v, f v)) :=
    mapM_eq_map fun v hv => by rw [h v hv, Option.map_some]
  have hsort := List.map_mergeSort (f := fun v => (v, f v)) (r := fun u v => decide (f u ≤ f v))
    (s := fun a b => decide (a.2 ≤ b.2)) (l := vs) fun _ _ _ _ => rfl
  rw [sortBy?, hpairs, Option.bind_eq_bind, Option.bind_some, ← hsort, List.map_map]
  exact congrArg some (List.map_id' _)

theorem idxOf?_eq_idxOf {l : List Nat} {v : Nat} (h : v ∈ l) : l.idxOf? v = some (l.idxOf v) := by
  induction l with
  | nil => exact absurd h List.not_mem_nil
  | cons w l ih =>
    by_cases hw : w = v
    · rw [List.idxOf?_cons, hw, List.idxOf_cons_self]
      exact if_pos (beq_self_eq_true v)
    · have hne : ¬ (w == v) = true := by simpa using hw
      rw [List.idxOf?_cons, if_neg hne, List.idxOf_cons_ne _ hw,
        ih ((List.mem_cons.mp h).resolve_left fun he => hw he.symm)]
      rfl

theorem length_filter_not_mem_lt {keys found : List Nat} {v : Nat} (hv : v ∈ keys)
    (hfound : v ∉ found) : (keys.filter (· ∉ found ++ [v])).length <
      (keys.filter (· ∉ found)).length := by
  have hsplit : keys.filter (· ∉ found ++ [v]) = (keys.filter (· ∉ found)).filter (· ≠ v) := by
    rw [List.filter_filter]
    refine List.filter_congr fun w _ => ?_
    simp [and_comm]
  rw [hsplit]
  refine List.length_filter_lt_length_iff_exists.mpr ⟨v, ?_, by simp⟩
  exact List.mem_filter.mpr ⟨hv, by simpa using hfound⟩

/-- What a search has found, and the targets of the arcs that it keeps from each member. -/
structure Trace where
  found : List Nat
  dag : Table (List Nat)

namespace Trace

/-- Searches on from a stack of open vertices. -/
def explore? (successors : Table (List Nat)) (stack : List (Nat × List Nat)) (s : Trace) :
    Option Trace :=
  match stack with
  | [] => some s
  | (_, []) :: rest => explore? successors rest s
  | (u, v :: vs) :: rest =>
    if v = u ∨ v ∈ rest.map (·.1) then explore? successors ((u, vs) :: rest) s
    else
      match s.dag.change? u fun ts => if v ∈ ts then ts else ts ++ [v] with
      | none => none
      | some dag =>
        if v ∈ s.found then explore? successors ((u, vs) :: rest) ⟨s.found, dag⟩
        else if v ∈ successors.keys then
          explore? successors ((v, successors.value v) :: (u, vs) :: rest) ⟨s.found ++ [v], dag⟩
        else none
termination_by ((successors.keys.filter (· ∉ s.found)).length, Search.work stack)
decreasing_by
  · apply Prod.Lex.right
    simp [Search.work]
  · apply Prod.Lex.right
    simp [Search.work]
  · apply Prod.Lex.right
    simp [Search.work]
  · apply Prod.Lex.left
    exact length_filter_not_mem_lt ‹_› ‹_›

/-- Searches from a vertex that was not found yet. -/
def visit? (successors : Table (List Nat)) (s : Trace) (v : Nat) : Option Trace :=
  if v ∈ s.found then some s
  else do
    let ts ← successors.get? v
    explore? successors [(v, ts)] { s with found := s.found ++ [v] }

end Trace

/-- A search as a trace. -/
def Search.trace (members : List Nat) (s : Search) : Trace :=
  ⟨s.found, ⟨members, Component.keptTargets s⟩⟩

theorem mem_keptTargets {s : Search} {u v : Nat} :
    v ∈ Component.keptTargets s u ↔ (u, v) ∈ s.dag := by
  simp [Component.keptTargets]

theorem keptTargets_keep (s : Search) (u v : Nat) : Component.keptTargets (s.keep u v) = fun i =>
    if i = u then
      if v ∈ Component.keptTargets s u then Component.keptTargets s u
      else Component.keptTargets s u ++ [v]
    else Component.keptTargets s i := by
  funext i
  have hmem : s.dag.contains (u, v) = true ↔ v ∈ Component.keptTargets s u := by
    rw [List.contains_iff_mem, mem_keptTargets]
  unfold Search.keep
  by_cases hv : v ∈ Component.keptTargets s u
  · rw [if_pos (hmem.mpr hv), if_pos hv]
    split
    · next hi => rw [hi]
    · rfl
  · rw [if_neg (fun h => hv (hmem.mp h)), if_neg hv]
    by_cases hi : i = u
    · subst hi
      simp [Component.keptTargets]
    · have hne : u ≠ i := fun he => hi he.symm
      simp [Component.keptTargets, hi, hne]

namespace Search

variable {targets : Nat → List Nat} {members : List Nat} {stack : List (Nat × List Nat)}
  {s : Search} {u v : Nat}

/-- To keep an arc is to change the table of kept arcs. -/
theorem change?_trace (hu : u ∈ members) :
    (s.trace members).dag.change? u (fun ts => if v ∈ ts then ts else ts ++ [v]) =
      some ((s.keep u v).trace members).dag := by
  rw [trace, trace, Table.change?_eq hu, keptTargets_keep]

/-- A member that was not found is fresh. -/
theorem Good.mem_fresh (h : s.Good targets members stack) (hmembers : members.Nodup)
    (hv : v ∈ members) : v ∈ s.fresh ↔ v ∉ s.found := by
  have hnodup := h.parts.nodup_iff.mpr hmembers
  have hmem := h.parts.mem_iff.mpr hv
  constructor
  · exact fun hfresh hfound => (List.nodup_append.mp hnodup).2.2 v hfound v hfresh rfl
  · exact fun hfound => (List.mem_append.mp hmem).resolve_left hfound

theorem Good.mem_of_found (h : s.Good targets members stack) (hv : v ∈ s.found) : v ∈ members :=
  h.parts.mem_iff.mp (List.mem_append_left _ hv)

/-- The search on tables does not fail where all targets are members. -/
theorem explore?_trace (hmembers : members.Nodup) (htargets : ∀ u, ∀ v ∈ targets u, v ∈ members)
    (h : s.Good targets members stack) :
    Trace.explore? ⟨members, targets⟩ stack (s.trace members) =
      some ((explore targets stack s).trace members) := by
  fun_induction explore targets stack s with
  | case1 s => rw [Trace.explore?]
  | case2 s u rest ih =>
    rw [Trace.explore?]
    exact ih h.close
  | case3 s u v vs rest hup ih =>
    rw [Trace.explore?, if_pos hup]
    exact ih (h.back hup)
  | case4 s u v vs rest hup hv ih =>
    have hu := h.mem_of_found (h.opened _ List.mem_cons_self)
    have hmem := htargets u v (h.pending _ List.mem_cons_self v List.mem_cons_self)
    have hfound : v ∉ (s.trace members).found := (h.mem_fresh hmembers hmem).mp hv
    rw [Trace.explore?, if_neg hup, change?_trace hu]
    simp only
    rw [if_neg hfound, if_pos hmem, ← ih (h.enter hv), trace, discover, found_keep]
    rfl
  | case5 s u v vs rest hup hv ih =>
    have hu := h.mem_of_found (h.opened _ List.mem_cons_self)
    have hmem := htargets u v (h.pending _ List.mem_cons_self v List.mem_cons_self)
    have hfound : v ∈ (s.trace members).found :=
      not_not.mp fun hn => hv ((h.mem_fresh hmembers hmem).mpr hn)
    rw [Trace.explore?, if_neg hup, change?_trace hu]
    simp only
    rw [if_pos hfound, ← ih h.advance, trace, trace, found_keep]

theorem visit?_trace (hmembers : members.Nodup) (htargets : ∀ u, ∀ v ∈ targets u, v ∈ members)
    (h : s.Good targets members []) (hv : v ∈ members) :
    Trace.visit? ⟨members, targets⟩ (s.trace members) v =
      some ((visit targets s v).trace members) := by
  have hfound : v ∈ s.fresh ↔ v ∉ (s.trace members).found := h.mem_fresh hmembers hv
  unfold Trace.visit? visit
  by_cases hfresh : v ∈ s.fresh
  · rw [if_neg (hfound.mp hfresh), if_pos hfresh, Table.get?_eq hv,
      ← explore?_trace hmembers htargets (h.discover hfresh (by simp))]
    rfl
  · rw [if_pos (not_not.mp fun hn => hfresh (hfound.mpr hn)), if_neg hfresh]

theorem foldlM_visit?_trace (hmembers : members.Nodup)
    (htargets : ∀ u, ∀ v ∈ targets u, v ∈ members) (h : s.Good targets members []) {vs : List Nat}
    (hvs : ∀ v ∈ vs, v ∈ members) :
    vs.foldlM (Trace.visit? ⟨members, targets⟩) (s.trace members) =
      some ((vs.foldl (visit targets) s).trace members) := by
  induction vs generalizing s with
  | nil => rfl
  | cons v vs ih =>
    obtain ⟨hv, hvs⟩ := List.forall_mem_cons.mp hvs
    rw [List.foldlM_cons, visit?_trace hmembers htargets h hv, Option.bind_eq_bind,
      Option.bind_some, List.foldl_cons]
    exact ih (h.visit hmembers v).1 hvs

end Search

namespace Component

variable {c : Component}

/-- The targets of each member, entered arc by arc. -/
def successors? (c : Component) : Option (Table (List Nat)) :=
  c.forward.foldlM (fun t a => t.change? a.1 (· ++ [a.2])) ⟨c.members, fun _ => []⟩

/-- Searches from the roots and then from all members. -/
def search? (c : Component) (roots : List Nat) : Option Trace := do
  let successors ← c.successors?
  (roots ++ c.members).foldlM (Trace.visit? successors) ⟨[], ⟨c.members, fun _ => []⟩⟩

theorem mem_of_mem_roots {v : Nat} (h : v ∈ c.roots) : v ∈ c.members := by
  simp only [roots, List.mem_append, List.mem_filter] at h
  rcases h with ⟨⟨h, -⟩, -⟩ | ⟨⟨h, -⟩, -⟩
  · exact h
  · exact h

theorem successors?_eq (h : ∀ a ∈ c.forward, a.1 ∈ c.members) :
    c.successors? = some ⟨c.members, c.targets⟩ := by
  rw [successors?, Table.foldlM_append_eq h]
  rfl

theorem search?_eq (hc : c.Closed) : c.search? c.roots = some (c.search.trace c.members) := by
  have htargets : ∀ u, ∀ v ∈ c.targets u, v ∈ c.members :=
    fun u v hv => (hc.ends _ (mem_targets.mp hv)).2
  have hstart : (⟨c.members, [], []⟩ : Search).trace c.members = ⟨[], ⟨c.members, fun _ => []⟩⟩ := rfl
  rw [search?, successors?_eq fun a ha => (hc.ends a ha).1, Option.bind_eq_bind, Option.bind_some,
    ← hstart, Search.foldlM_visit?_trace hc.distinct htargets (good_start _ _), search,
    eraseDups_of_nodup hc.distinct]
  intro v hv
  rcases List.mem_append.mp hv with hv | hv
  · exact mem_of_mem_roots hv
  · exact hv

end Component

end ScriptFlow
