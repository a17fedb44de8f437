import ScriptFlow.Graph.Basic

/-!
Walking a flow graph by the tags of its structural edges. A condition is followed along both
outcomes and ends the walk, a loop along its body and then along its plain edge, any other node
along its plain edge. A node that was met before on the same way ends the walk.
-/

namespace ScriptFlow

/-- What a walk meets, with what it meets from there under each outcome or in the body. -/
inductive Visit where
  | plain (n : Node)
  | fork (n : Node) (whenTrue whenFalse : List Visit)
  | loop (n : Node) (body : List Visit)

/-- The end of the first structural edge with this source and tag. -/
def Graph.target? (g : Graph) (id : String) (branch : Branch) : Option String :=
  (g.edges.find? fun e => e.isStructural && e.source == id && e.branch == branch).map (·.target)

namespace Graph

/-- The ids of nodes that were not visited. -/
def unvisited (g : Graph) (visited : List String) : List String :=
  (g.nodes.map (·.id)).filter fun id => decide (id ∉ visited)

theorem unvisited_cons (g : Graph) (id : String) (visited : List String) :
    g.unvisited (id :: visited) = (g.unvisited visited).filter fun i => decide (i ≠ id) := by
  simp [unvisited, List.filter_filter, not_or]

theorem mem_ids_of_findLast? {g : Graph} {id : String} {n : Node}
    (h : g.findLast? id = some n) : id ∈ g.nodes.map (·.id) := by
  have hid : n.id = id := by simpa using List.find?_some h
  exact List.mem_map.mpr ⟨n, by simpa using List.mem_of_find?_eq_some h, hid⟩

theorem unvisited_lt {g : Graph} {id : String} {n : Node} {visited : List String}
    (hn : g.findLast? id = some n) (hv : id ∉ visited) :
    (g.unvisited (id :: visited)).length < (g.unvisited visited).length := by
  rw [unvisited_cons, List.length_filter_lt_length_iff_exists]
  exact ⟨id, List.mem_filter.mpr ⟨mem_ids_of_findLast? hn, by simpa using hv⟩, by simp⟩

/-- What is met from a node on. The walk ends at a node of `stop` or `visited`, at an entry, and
where no node has the id. -/
def walk (g : Graph) (stop visited : List String) (start : Option String) : List Visit :=
  match start with
  | none => []
  | some id =>
    if id ∈ stop then []
    else if _ : id ∈ visited then []
    else
      match _ : g.findLast? id with
      | none => []
      | some n =>
        match n.kind with
        | .entry => []
        | .condition =>
          [.fork n (g.walk stop (id :: visited) (g.target? id .whenTrue))
            (g.walk stop (id :: visited) (g.target? id .whenFalse))]
        | .loop =>
          .loop n (g.walk (id :: stop) (id :: visited) (g.target? id .body)) ::
            g.walk stop (id :: visited) (g.target? id .none)
        | .action => .plain n :: g.walk stop (id :: visited) (g.target? id .none)
termination_by (g.unvisited visited).length
decreasing_by all_goals exact unvisited_lt ‹_› ‹_›

/-- What is met from an entry on. -/
def walkFrom (g : Graph) (entry : Node) : List Visit :=
  g.walk [] [entry.id] ((g.target? entry.id .none).filter (· ≠ ""))

end Graph

end ScriptFlow
