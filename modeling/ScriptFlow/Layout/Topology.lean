import ScriptFlow.Graph.Basic

/-!
The part of a graph that its layout depends on. A node stands for the last node with its id, known
by its index; an arc is a structural edge between two different ids of the graph.
-/

namespace ScriptFlow

structure Arc where
  source : Nat
  target : Nat
  isLoopBack : Bool
deriving DecidableEq

structure Topology where
  /-- The vertex of each node, in node order. -/
  order : List Nat
  /-- The indices of entry nodes. -/
  entries : List Nat
  arcs : List Arc
deriving DecidableEq

/-- The index of the last occurrence. -/
def lastIndex? (ids : List String) (id : String) : Option Nat :=
  match ids with
  | [] => none
  | a :: rest =>
    match lastIndex? rest id with
    | some i => some (i + 1)
    | none => if a = id then some 0 else none

namespace Graph

def ids (g : Graph) : List String := g.nodes.map (·.id)

/-- The arc of an edge, if both ends are nodes of the graph and differ. -/
def arc? (g : Graph) (e : Edge) : Option Arc :=
  if e.source = e.target then none
  else
    match lastIndex? g.ids e.source, lastIndex? g.ids e.target with
    | some s, some t => some ⟨s, t, e.branch == .loopBack⟩
    | _, _ => none

def topology (g : Graph) : Topology :=
  { order := g.ids.filterMap (lastIndex? g.ids)
    entries := (g.nodes.zipIdx.filter (·.1.isEntry)).map (·.2)
    arcs := g.structuralEdges.filterMap g.arc? }

end Graph

end ScriptFlow
