import ScriptFlow.Digest
import ScriptFlow.Json.Canonical
import ScriptFlow.Json.Equality
import ScriptFlow.Json.Sieve

/-!
Flow graphs: nodes with a kind, a configuration and a place on the canvas, structural edges tagged
by branch, and advisory data edges.
-/

namespace ScriptFlow

inductive NodeKind where
  | entry
  | action
  | condition
  | loop
deriving DecidableEq

/-- The tag of an edge. -/
inductive Branch where
  | none
  | whenTrue
  | whenFalse
  | body
  | loopBack
deriving DecidableEq

structure Point where
  x : Float
  y : Float
deriving DecidableEq

structure Node where
  id : String
  kind : NodeKind
  actionType : String
  config : Fields
  position : Point
  presentation : Fields
  /-- Variables that the node reads. -/
  inputs : List String
  /-- Variables that the node writes. -/
  outputs : List String
deriving DecidableEq

structure Edge where
  id : String
  source : String
  target : String
  branch : Branch
  isData : Bool
  label : String
deriving DecidableEq

structure Graph where
  nodes : List Node
  edges : List Edge
deriving DecidableEq

namespace NodeKind

def all : List NodeKind := [entry, action, condition, loop]

def name : NodeKind → String
  | entry => "entry"
  | action => "action"
  | condition => "condition"
  | loop => "loop"

def ofName? (s : String) : Option NodeKind := all.find? (·.name == s)

/-- The kind of node that an action type is drawn as. -/
def ofType : String → NodeKind
  | "if" => condition
  | "forEach" | "while" => loop
  | "capability" => entry
  | _ => action

end NodeKind

namespace Branch

def all : List Branch := [none, whenTrue, whenFalse, body, loopBack]

def name : Branch → String
  | none => "none"
  | whenTrue => "true"
  | whenFalse => "false"
  | body => "body"
  | loopBack => "loop-back"

def ofName? (s : String) : Option Branch := all.find? (·.name == s)

/-- What the canvas writes beside an edge. -/
def label : Branch → String
  | whenTrue => "Yes"
  | whenFalse => "No"
  | _ => ""

end Branch

namespace Point

def zero : Point := ⟨0, 0⟩

/-- Equal as numbers. -/
def same (p q : Point) : Bool := p.x == q.x && p.y == q.y

def toJson (p : Point) : Json := .obj [("x", .float p.x), ("y", .float p.y)]

end Point

namespace Node

def isEntry (n : Node) : Bool := n.kind == .entry

/-- The coordinates are written as they are, and the fields that can hold any value are dumped. -/
def toJson (n : Node) : Json :=
  .obj [("id", .str n.id), ("kind", .str n.kind.name), ("actionType", .str n.actionType),
    ("config", .obj n.config.dumped), ("position", n.position.toJson),
    ("presentation", .obj n.presentation.dumped), ("inputs", .arr (n.inputs.map .str)),
    ("outputs", .arr (n.outputs.map .str))]

end Node

namespace Edge

def isStructural (e : Edge) : Bool := !e.isData

/-- The id of a structural edge, from its ends and its tag. -/
def structuralId (source target : String) : Branch → String
  | .none => "edge_" ++ source ++ "_" ++ target
  | b => "edge_" ++ source ++ "_" ++ b.name ++ "_" ++ target

def dataId (source target variableName : String) : String :=
  "data_" ++ source ++ "_" ++ target ++ "_" ++ variableName

def structural (source target : String) (branch : Branch) : Edge :=
  ⟨structuralId source target branch, source, target, branch, false, branch.label⟩

def data (source target variableName : String) : Edge :=
  ⟨dataId source target variableName, source, target, .none, true, variableName⟩

def toJson (e : Edge) : Json :=
  .obj [("id", .str e.id), ("source", .str e.source), ("target", .str e.target),
    ("branch", .str e.branch.name), ("isDataEdge", .bool e.isData), ("label", .str e.label)]

end Edge

namespace Graph

/-- The first node with an id. -/
def find? (g : Graph) (id : String) : Option Node := g.nodes.find? (·.id == id)

/-- The last node with an id. -/
def findLast? (g : Graph) (id : String) : Option Node := g.nodes.reverse.find? (·.id == id)

def hasNode (g : Graph) (id : String) : Bool := g.nodes.any (·.id == id)

def structuralEdges (g : Graph) : List Edge := g.edges.filter (·.isStructural)

def dataEdges (g : Graph) : List Edge := g.edges.filter (·.isData)

def outgoing (g : Graph) (id : String) : List Edge := g.edges.filter (·.source == id)

def entries (g : Graph) : List Node := g.nodes.filter (·.isEntry)

def toJson (g : Graph) : Json :=
  .obj [("nodes", .arr (g.nodes.map Node.toJson)), ("edges", .arr (g.edges.map Edge.toJson))]

end Graph

/-! The digest of a graph covers ids, kinds, types, configurations, places and edges. -/

namespace Node

def summary (n : Node) : Json :=
  .arr [.str n.id, .str n.kind.name, .str n.actionType, .obj n.config, .float n.position.x,
    .float n.position.y]

end Node

namespace Edge

def summary (e : Edge) : Json :=
  .arr [.str e.id, .str e.source, .str e.target, .str e.branch.name, .bool e.isData]

/-- By id, source, target, tag, and structural edges first. -/
def le (e f : Edge) : Bool :=
  if e.id ≠ f.id then decide (e.id < f.id)
  else if e.source ≠ f.source then decide (e.source < f.source)
  else if e.target ≠ f.target then decide (e.target < f.target)
  else if e.branch.name ≠ f.branch.name then decide (e.branch.name < f.branch.name)
  else !e.isData || f.isData

end Edge

namespace Graph

/-- The value that is digested: nodes in order, edges sorted. -/
def summary (g : Graph) : Json :=
  .obj [("nodes", .arr (g.nodes.map Node.summary)),
    ("edges", .arr ((g.edges.mergeSort Edge.le).map Edge.summary))]

def digest (g : Graph) : String := Digest.ofAscii g.summary.canonicalChars

end Graph

end ScriptFlow
