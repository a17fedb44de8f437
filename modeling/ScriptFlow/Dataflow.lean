import ScriptFlow.Graph.Basic
import ScriptFlow.Variables

/-!
Data edges: from the last node that writes a variable to each node that reads it, one for each pair
of nodes. They are advisory and come after the structural edges.
-/

namespace ScriptFlow

/-- The id of the last node that writes a variable. -/
def producer? (nodes : List Node) (variableName : String) : Option String :=
  (nodes.reverse.find? (·.outputs.contains variableName)).map (·.id)

/-- Every variable that some node writes, in order of first appearance. -/
def Graph.availableVariables (g : Graph) : List String :=
  (g.nodes.flatMap (·.outputs)).foldl Variables.addNew []

/-- Each written variable with the node that provides it. -/
def producers (nodes : List Node) : Fields :=
  ((nodes.flatMap (·.outputs)).foldl Variables.addNew []).filterMap fun v =>
    (producer? nodes v).map fun id => (v, .str id)

/-- A variable on its way from the node that writes it to one that reads it. -/
structure Use where
  source : String
  target : String
  variableName : String
deriving DecidableEq

/-- What a node reads from other nodes. -/
def usesOf (nodes : List Node) (n : Node) : List Use :=
  n.inputs.filterMap fun v =>
    match producer? nodes v with
    | some p => if p = "" ∨ p = n.id then none else some ⟨p, n.id, v⟩
    | none => none

/-- A data edge for the first use between each pair that is not linked. -/
def dataEdgesFor (linked : List (String × String)) : List Use → List Edge
  | [] => []
  | u :: us =>
    if linked.contains (u.source, u.target) then dataEdgesFor linked us
    else Edge.data u.source u.target u.variableName ::
      dataEdgesFor ((u.source, u.target) :: linked) us

/-- The data edges that are not there yet. -/
def inferDataEdges (nodes : List Node) (edges : List Edge) : List Edge :=
  dataEdgesFor ((edges.filter (·.isData)).map fun e => (e.source, e.target))
    (nodes.flatMap (usesOf nodes))

def Graph.annotate (g : Graph) : Graph :=
  { g with edges := g.edges ++ inferDataEdges g.nodes g.edges }

def Graph.stripDataEdges (g : Graph) : Graph := { g with edges := g.structuralEdges }

end ScriptFlow
