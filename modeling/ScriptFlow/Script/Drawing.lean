import ScriptFlow.Fault
import ScriptFlow.Label
import ScriptFlow.Note
import ScriptFlow.Script.Outline

/-!
Drawing a document as a flow graph: one node per item of its outline and one structural edge per
link. The node numbered `k` has the id `k` after a common stem.
-/

namespace ScriptFlow

/-- The stem of node ids where none is given. -/
def defaultStem : String := "node"

def nodeId (stem : String) (n : Nat) : String := stem ++ "_" ++ n.repr

/-- What the canvas shows of an action, its note apart. -/
def Spot.presentation (stem : String) (spot : Spot) (type : String) (config : Fields) : Fields :=
  [("label", .str (label type config)), ("category", .str (Catalog.category type).name),
    ("icon", .str (Catalog.icon type)), ("capabilityName", .str spot.capability)] ++
  optionalField "parentId" (spot.parent.map fun n => .str (nodeId stem n)) ++
  optionalField "branchType" (spot.firstOf.map fun side => .str side.name) ++
  (if spot.inLoop then [("loopBody", .bool true)] else [])

/-- What the canvas shows of a capability. -/
def entryPresentation (title : Json) : Fields :=
  [("label", title), ("category", .str (Catalog.category Catalog.capabilityType).name),
    ("icon", .str (Catalog.icon Catalog.capabilityType)), ("capabilityName", title),
    ("isCapabilityEntry", .bool true)]

def Action.kind : Action → NodeKind
  | leaf .. => .action
  | branch .. => .condition
  | loop .. => .loop

/-- The note that a configuration carries, as it is shown on a fresh node. -/
def shownNote (config : Fields) : Except Fault Fields :=
  match Note.ofConfig? config with
  | none => .ok []
  | some note => do
    let note ← note.orFault "NodeNote"
    .ok [("note", .obj (note.shown config))]

namespace Item

def node (stem : String) : Item → Except Fault Node
  | capability n c =>
    .ok { id := nodeId stem n, kind := .entry, actionType := Catalog.capabilityType,
          config := c.metadata, position := .zero, presentation := entryPresentation (.str c.title),
          inputs := [], outputs := [] }
  | action n a spot => do
    let note ← shownNote a.config
    .ok { id := nodeId stem n, kind := a.kind, actionType := a.type, config := a.config,
          position := .zero,
          presentation := spot.presentation stem a.type a.config ++ note,
          inputs := Variables.inputs a.config, outputs := Variables.outputs a.type a.config }

end Item

def Link.edge (stem : String) (l : Link) : Edge :=
  Edge.structural (nodeId stem l.source) (nodeId stem l.target) l.branch

/-- Appends an edge unless its id is taken. -/
def addEdge (edges : List Edge) (e : Edge) : List Edge :=
  if edges.any (·.id == e.id) then edges else edges ++ [e]

def Outline.draw (stem : String) (o : Outline) : Except Fault Graph := do
  let nodes ← o.items.mapM (·.node stem)
  .ok ⟨nodes, (o.links.map (·.edge stem)).foldl addEdge []⟩

def Document.draw (stem : String) (d : Document) : Except Fault Graph := d.outline.draw stem

def Capability.draw (stem : String) (c : Capability) : Except Fault Graph := c.outline.draw stem

end ScriptFlow
