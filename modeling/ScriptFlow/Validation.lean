import ScriptFlow.Graph.FlowError

/-!
Checking a flow: it has an entry, its structural edges end at nodes, and every node but the entries
is an end of one, has no outcome or body twice, and has the required fields of its type.
-/

namespace ScriptFlow

namespace Graph

def isEnd (edges : List Edge) (id : String) : Bool :=
  edges.any fun e => e.source == id || e.target == id

/-- How many structural edges with a tag leave a node. -/
def branchCount (edges : List Edge) (id : String) (b : Branch) : Nat :=
  edges.countP fun e => e.source == id && e.branch == b

def endErrors (g : Graph) (e : Edge) : List FlowError :=
  [e.source, e.target].filterMap fun id =>
    if g.hasNode id then none else some (.missingEnd e.id id)

end Graph

namespace Node

def branchErrors (n : Node) (structural : List Edge) : List FlowError :=
  match n.kind with
  | .condition =>
    [Branch.whenTrue, Branch.whenFalse].filterMap fun b =>
      if 1 < Graph.branchCount structural n.id b then some (.repeatedOutcome n.id b) else none
  | .loop => if 1 < Graph.branchCount structural n.id .body then [.repeatedBody n.id] else []
  | _ => []

def fieldErrors (n : Node) : List FlowError :=
  ((Catalog.required n.actionType).filter (·.isMissing n.config)).map (.missingField n.id)

def errors (n : Node) (structural : List Edge) : List FlowError :=
  if n.isEntry then []
  else
    (if Graph.isEnd structural n.id then [] else [.disconnected n.id]) ++
      n.branchErrors structural ++ n.fieldErrors

end Node

/-- Every error of a flow: of the whole, of its edges, then of its nodes. -/
def Graph.validate (g : Graph) : List FlowError :=
  (if g.nodes.any (·.isEntry) then [] else [.noEntry]) ++
    g.structuralEdges.flatMap g.endErrors ++
    g.nodes.flatMap (·.errors g.structuralEdges)

/-- The messages for one node. -/
def FlowError.messagesAt (errors : List FlowError) (id : String) : List String :=
  (errors.filter (·.node? == some id)).map (·.message)

/-- The messages of each node that has one, in order of first appearance. -/
def FlowError.byNode (errors : List FlowError) : Fields :=
  (((errors.filterMap (·.node?)).filter (· ≠ "")).eraseDups).map fun id =>
    (id, .arr ((messagesAt errors id).map .str))

end ScriptFlow
