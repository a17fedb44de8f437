import ScriptFlow.Layout.Geometry

/-!
Laying out a graph: every node moves to the place of its vertex, and nothing else changes.
-/

namespace ScriptFlow

namespace Graph

/-- The place of a node among those of all vertices. -/
def placeOf? (g : Graph) (places : List (Placement Float)) (n : Node) : Option Point := do
  let v ← lastIndex? g.ids n.id
  let p ← places.find? (·.vertex == v)
  some ⟨p.x, p.y⟩

def layout (g : Graph) (geo : Geometry Float) (sweeps : Nat) : Graph :=
  let places := g.topology.place geo sweeps
  { g with nodes := g.nodes.map fun n =>
      { n with position := (g.placeOf? places n).getD n.position } }

theorem ids_layout (g : Graph) (geo : Geometry Float) (sweeps : Nat) :
    (g.layout geo sweeps).ids = g.ids := by
  simp [layout, ids]

theorem edges_layout (g : Graph) (geo : Geometry Float) (sweeps : Nat) :
    (g.layout geo sweeps).edges = g.edges := rfl

end Graph

end ScriptFlow
