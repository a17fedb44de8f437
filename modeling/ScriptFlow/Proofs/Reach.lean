import ScriptFlow.Proofs.Drawn
import ScriptFlow.Proofs.Walk

/-! The nodes that a walk meets are those that it can reach. A walk does not come back to a node
that it met on the same way, so a way with a detour is cut short first. -/

namespace ScriptFlow

namespace Visit

mutual
/-- The nodes of a visit in the order in which they are met. -/
def nodes : Visit → List Node
  | plain n => [n]
  | fork n whenTrue whenFalse => n :: (listNodes whenTrue ++ listNodes whenFalse)
  | loop n body => n :: listNodes body

def listNodes : List Visit → List Node
  | [] => []
  | v :: vs => v.nodes ++ listNodes vs
end

end Visit

namespace Graph

/-- Where a walk goes on from a node. -/
def Follows (g : Graph) (n : Node) (id : String) : Prop :=
  match n.kind with
  | .entry => g.target? n.id .none = some id ∧ id ≠ ""
  | .action => g.target? n.id .none = some id
  | .condition => g.target? n.id .whenTrue = some id ∨ g.target? n.id .whenFalse = some id
  | .loop => g.target? n.id .body = some id ∨ g.target? n.id .none = some id

/-- A way from an id to a node that meets neither entries nor ids of `avoid`. -/
inductive Leads (g : Graph) (avoid : List String) : String → Node → Prop
  | here {n : Node} : n ∈ g.nodes → ¬ n.isEntry → n.id ∉ avoid → Leads g avoid n.id n
  | step {m n : Node} {id : String} : m ∈ g.nodes → ¬ m.isEntry → m.id ∉ avoid →
      g.Follows m id → Leads g avoid id n → Leads g avoid m.id n

/-- A way from an entry to a node. -/
def Reaches (g : Graph) (entry n : Node) : Prop := ∃ id, g.Follows entry id ∧ g.Leads [] id n

/-- A way from an id to a node where several nodes may have one id: the last one stands for it. -/
inductive Passes (g : Graph) (avoid : List String) : String → Node → Prop
  | here {id : String} {n : Node} : g.findLast? id = some n → ¬ n.isEntry → id ∉ avoid →
      Passes g avoid id n
  | step {id next : String} {m n : Node} : g.findLast? id = some m → ¬ m.isEntry → id ∉ avoid →
      g.Follows m next → Passes g avoid next n → Passes g avoid id n

section

variable {g : Graph} {avoid stop visited : List String} {id : String} {m n : Node}

namespace Passes

theorem not_mem (h : g.Passes avoid id n) : id ∉ avoid := by
  cases h with
  | here _ _ hv => exact hv
  | step _ _ hv => exact hv

theorem exists_first (h : g.Passes avoid id n) : ∃ m, g.findLast? id = some m ∧ ¬ m.isEntry := by
  cases h with
  | here hn he => exact ⟨n, hn, he⟩
  | @step _ _ m _ hm he => exact ⟨m, hm, he⟩

theorem mono {less : List String} (h : g.Passes avoid id n) (hsub : less ⊆ avoid) :
    g.Passes less id n := by
  induction h with
  | here hn he hv => exact .here hn he fun hm => hv (hsub hm)
  | step hk he hv hf _ ih => exact .step hk he (fun hm => hv (hsub hm)) hf ih

/-- A way to a node avoids an id, or it ends there, or it can begin where it leaves the id last. -/
theorem avoid_or (hm : g.findLast? id = some m) {start : String} (h : g.Passes avoid start n) :
    g.Passes (id :: avoid) start n ∨ n = m ∨
      ∃ next, g.Follows m next ∧ g.Passes (id :: avoid) next n := by
  induction h with
  | @here start n hn he hv =>
    by_cases hid : start = id
    · exact Or.inr (Or.inl (Option.some.inj (hn.symm.trans (hid ▸ hm))))
    · exact Or.inl (.here hn he (by simp [hid, hv]))
  | @step start next k n hk he hv hf _ ih =>
    rcases ih with h | h | h
    · by_cases hid : start = id
      · obtain rfl : k = m := Option.some.inj (hk.symm.trans (hid ▸ hm))
        exact Or.inr (Or.inr ⟨next, hf, h⟩)
      · exact Or.inl (.step hk he (by simp [hid, hv]) hf h)
    · exact Or.inr (Or.inl h)
    · exact Or.inr (Or.inr h)

end Passes

/-- A way ends at its first node or goes on from it and does not come back. -/
theorem passes_iff (hm : g.findLast? id = some m) (hentry : ¬ m.isEntry) (hv : id ∉ avoid) :
    g.Passes avoid id n ↔ n = m ∨ ∃ next, g.Follows m next ∧ g.Passes (id :: avoid) next n := by
  constructor
  · intro h
    rcases h.avoid_or hm with h | h | h
    · exact absurd List.mem_cons_self h.not_mem
    · exact Or.inl h
    · exact Or.inr h
  · intro hx
    rcases hx with rfl | ⟨next, hf, h⟩
    · exact .here hm hentry hv
    · exact .step hm hentry hv hf (h.mono (List.subset_cons_self _ _))

/-- A walk meets exactly the nodes to which a way leads that avoids what was visited. -/
theorem mem_walk {start : Option String} (hstop : stop ⊆ visited) :
    n ∈ Visit.listNodes (g.walk stop visited start) ↔
      ∃ id, start = some id ∧ g.Passes visited id n := by
  induction hlen : (g.unvisited visited).length using Nat.strongRecOn
    generalizing stop visited start with
  | ind len ih =>
    cases start with
    | none => simp [walk_none, Visit.listNodes]
    | some id =>
      simp only [Option.some.injEq, exists_eq_left']
      by_cases hv : id ∈ visited
      · rw [walk_of_mem_visited hv]
        exact ⟨fun h => absurd h List.not_mem_nil, fun h => absurd hv h.not_mem⟩
      cases hm : g.findLast? id with
      | none =>
        rw [walk_of_missing hm]
        refine ⟨fun h => absurd h List.not_mem_nil, fun h => ?_⟩
        obtain ⟨m, hfirst, -⟩ := h.exists_first
        rw [hm] at hfirst
        cases hfirst
      | some m =>
        have hid : m.id = id := by simpa using List.find?_some hm
        subst hid
        -- on the way from `m` on, `m` itself counts as visited
        have hnext : ∀ {stop' : List String} {start : Option String}, stop' ⊆ m.id :: visited →
            (n ∈ Visit.listNodes (g.walk stop' (m.id :: visited) start) ↔
              ∃ id, start = some id ∧ g.Passes (m.id :: visited) id n) :=
          fun hsub => ih _ (hlen ▸ unvisited_lt hm hv) hsub rfl
        have hsub : stop ⊆ m.id :: visited := fun _ h => List.mem_cons_of_mem _ (hstop h)
        have hs : m.id ∉ stop := fun h => hv (hstop h)
        rw [walk_some hs hv hm]
        cases hkind : m.kind with
        | entry =>
          refine ⟨fun h => absurd h List.not_mem_nil, fun h => ?_⟩
          obtain ⟨k, hk, he⟩ := h.exists_first
          obtain rfl : k = m := Option.some.inj (hk.symm.trans hm)
          rw [Node.isEntry, hkind] at he
          exact absurd rfl he
        | action =>
          rw [passes_iff hm (by simp [Node.isEntry, hkind]) hv]
          simp only [Visit.listNodes, Visit.nodes, List.singleton_append, List.mem_cons,
            hnext hsub, Follows, hkind]
        | condition =>
          rw [passes_iff hm (by simp [Node.isEntry, hkind]) hv]
          simp only [Visit.listNodes, Visit.nodes, List.append_nil, List.mem_cons, List.mem_append,
            hnext hsub, Follows, hkind, or_and_right, exists_or]
        | loop =>
          rw [passes_iff hm (by simp [Node.isEntry, hkind]) hv]
          simp only [Visit.listNodes, Visit.nodes, List.cons_append, List.mem_cons, List.mem_append,
            hnext hsub, hnext (List.cons_subset_cons _ hstop), Follows, hkind, or_and_right,
            exists_or]

/-- A way from an entry to a node that does not come back to the id of the entry. -/
def Meets (g : Graph) (entry n : Node) : Prop :=
  ∃ id, g.Follows entry id ∧ g.Passes [entry.id] id n

/-- The nodes that are met from an entry on. -/
theorem mem_walkFrom_iff_meets (hm : m ∈ g.entries) :
    n ∈ Visit.listNodes (g.walkFrom m) ↔ g.Meets m n := by
  have hkind : m.kind = .entry := beq_iff_eq.mp (List.mem_filter.mp hm).2
  rw [walkFrom, mem_walk (List.nil_subset _), Meets]
  simp only [Follows, hkind, Option.filter_eq_some_iff, decide_eq_true_eq]

/-! Where ids are distinct the last node with an id is the only one. -/

theorem Leads.passes (hids : (g.nodes.map (·.id)).Nodup) (h : g.Leads avoid id n) :
    g.Passes avoid id n := by
  induction h with
  | here hn he hv => exact .here (findLast?_eq_some hids hn) he hv
  | step hk he hv hf _ ih => exact .step (findLast?_eq_some hids hk) he hv hf ih

theorem Passes.leads (h : g.Passes avoid id n) : g.Leads avoid id n := by
  induction h with
  | here hn he hv =>
    obtain ⟨hmem, rfl⟩ := mem_of_findLast? hn
    exact .here hmem he hv
  | step hk he hv hf _ ih =>
    obtain ⟨hmem, rfl⟩ := mem_of_findLast? hk
    exact .step hmem he hv hf ih

/-- A way past an entry does not meet it. -/
theorem Passes.avoid_entry (hm : g.findLast? m.id = some m) (hentry : m.isEntry)
    (h : g.Passes avoid id n) : g.Passes (m.id :: avoid) id n := by
  have hne : ∀ {id : String} {k : Node}, g.findLast? id = some k → ¬ k.isEntry → id ∉ avoid →
      id ∉ m.id :: avoid := by
    intro id k hk he hv hmem
    rcases List.mem_cons.mp hmem with rfl | hmem
    · exact he (Option.some.inj (hk.symm.trans hm) ▸ hentry)
    · exact hv hmem
  induction h with
  | here hn he hv => exact .here hn he (hne hn he hv)
  | step hk he hv hf _ ih => exact .step hk he (hne hk he hv) hf ih

/-- The nodes that are met from an entry on are those that it reaches. -/
theorem mem_walkFrom (hids : (g.nodes.map (·.id)).Nodup) (hm : m ∈ g.entries) :
    n ∈ Visit.listNodes (g.walkFrom m) ↔ g.Reaches m n := by
  obtain ⟨hmem, hentry⟩ := List.mem_filter.mp hm
  rw [mem_walkFrom_iff_meets hm]
  constructor
  · intro hx
    obtain ⟨id, hf, h⟩ := hx
    exact ⟨id, hf, (h.mono (List.nil_subset _)).leads⟩
  · intro hx
    obtain ⟨id, hf, h⟩ := hx
    exact ⟨id, hf, (h.passes hids).avoid_entry (findLast?_eq_some hids hmem) hentry⟩

end

end Graph

end ScriptFlow
