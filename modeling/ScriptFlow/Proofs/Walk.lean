import ScriptFlow.Graph.Walk

/-! What a walk meets at its first node. -/

namespace ScriptFlow

namespace Graph

variable {g : Graph} {stop visited : List String} {id : String} {n : Node}

/-- A node that is found has the id that was looked for. -/
theorem mem_of_findLast? (h : g.findLast? id = some n) : n ∈ g.nodes ∧ n.id = id :=
  ⟨List.mem_reverse.mp (List.mem_of_find?_eq_some h), by simpa using List.find?_some h⟩

theorem walk_none : g.walk stop visited none = [] := by
  rw [walk]

theorem walk_of_mem_visited (h : id ∈ visited) : g.walk stop visited (some id) = [] := by
  rw [walk]
  simp [h]

theorem walk_of_missing (h : g.findLast? id = none) : g.walk stop visited (some id) = [] := by
  rw [walk]
  split
  · rfl
  split
  · rfl
  split
  · rfl
  · next hn =>
    rw [h] at hn
    cases hn

/-- The walk goes on from a node that it has not met. -/
theorem walk_some (hs : id ∉ stop) (hv : id ∉ visited) (hn : g.findLast? id = some n) :
    g.walk stop visited (some id) =
      match n.kind with
      | .entry => []
      | .condition =>
        [.fork n (g.walk stop (id :: visited) (g.target? id .whenTrue))
          (g.walk stop (id :: visited) (g.target? id .whenFalse))]
      | .loop =>
        .loop n (g.walk (id :: stop) (id :: visited) (g.target? id .body)) ::
          g.walk stop (id :: visited) (g.target? id .none)
      | .action => .plain n :: g.walk stop (id :: visited) (g.target? id .none) := by
  rw [walk, if_neg hs, dif_neg hv]
  split
  · next hm =>
    rw [hn] at hm
    cases hm
  · next m hm =>
    rw [hn] at hm
    cases hm
    rfl

end Graph

end ScriptFlow
