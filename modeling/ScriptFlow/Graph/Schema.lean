import ScriptFlow.Graph.Basic
import ScriptFlow.Schema.Scalar

/-!
Flow graphs read from JSON. The id and the type of a node, and the id and the data mark of an edge,
can be written under a second name.
-/

namespace ScriptFlow

namespace Point

def ofFields (fs : Fields) : Checked Point :=
  ((Read.field fs "x" 0 Read.float).map Point.mk).apply (Read.field fs "y" 0 Read.float)

def ofJson (origin : Origin) : Json → Checked Point := Read.record origin "Position" ofFields

end Point

namespace Node

def ofFields (origin : Origin) (fs : Fields) : Checked Node :=
  ((Read.requiredOr fs "id" "node_id" Read.text).map Node.mk)
    |>.apply (Read.field fs "kind" .action (Read.choice NodeKind.all NodeKind.name))
    |>.apply (Read.fieldOr fs "actionType" "action_type" "" Read.text)
    |>.apply (Read.field fs "config" [] Read.object)
    |>.apply (Read.field fs "position" .zero (Point.ofJson origin))
    |>.apply (Read.field fs "presentation" [] Read.object)
    |>.apply (Read.field fs "inputs" [] (Read.list Read.text))
    |>.apply (Read.field fs "outputs" [] (Read.list Read.text))

def ofJson (origin : Origin) : Json → Checked Node :=
  Read.record origin "FlowNode" (ofFields origin)

end Node

namespace Edge

def ofFields (fs : Fields) : Checked Edge :=
  ((Read.requiredOr fs "id" "edge_id" Read.text).map Edge.mk)
    |>.apply (Read.required fs "source" Read.text)
    |>.apply (Read.required fs "target" Read.text)
    |>.apply (Read.field fs "branch" .none (Read.choice Branch.all Branch.name))
    |>.apply (Read.fieldOr fs "isDataEdge" "is_data_edge" false Read.boolean)
    |>.apply (Read.field fs "label" "" Read.text)

def ofJson (origin : Origin) : Json → Checked Edge := Read.record origin "FlowEdge" ofFields

end Edge

namespace Graph

def ofFields (origin : Origin) (fs : Fields) : Checked Graph :=
  ((Read.field fs "nodes" [] (Read.list (Node.ofJson origin))).map Graph.mk).apply
    (Read.field fs "edges" [] (Read.list (Edge.ofJson origin)))

def ofJson (origin : Origin) : Json → Checked Graph :=
  Read.record origin "FlowGraph" (ofFields origin)

end Graph

end ScriptFlow
