import ScriptFlow.Fault
import ScriptFlow.Script.Drawing

/-!
Edits of a flow graph. An edit gives a new graph or a fault; connecting what is connected already,
or a node with itself, changes nothing.
-/

namespace ScriptFlow

namespace Node

/-- Computes the label of a node again, and for other nodes than entries the variables and the note
that is shown. -/
def refresh (n : Node) : Except Fault Node :=
  if n.isEntry then
    let title := (n.config.value "name").orElse (.str "")
    .ok { n with presentation := n.presentation.set "label" title }
  else do
    let n := { n with
      inputs := Variables.inputs n.config
      outputs := Variables.outputs n.actionType n.config
      presentation := n.presentation.set "label" (.str (label n.actionType n.config)) }
    match Note.refresh? (n.presentation.value "note") n.config with
    | none => .ok n
    | some note =>
      let note ← note.orFault "NodeNote"
      .ok { n with presentation := n.presentation.set "note" (.obj note) }

/-- A new node for an action type: its type, the defaults of the type, and the given
configuration over them. -/
def create (id type : String) (position : Point) (config : Fields) : Except Fault Node :=
  refresh
    { id, kind := .ofType type, actionType := type
      config := (Fields.update [("type", .str type)] (Catalog.defaults type)).update config
      position
      presentation := [("category", .str (Catalog.category type).name),
        ("icon", .str (Catalog.icon type))]
      inputs := [], outputs := [] }

/-- The entry node of a new capability. -/
def createEntry (id : String) (position : Point) (name description : Json) : Node :=
  { id, kind := .entry, actionType := Catalog.capabilityType
    config := [("name", name), ("description", description), ("parameters", .arr []),
      ("trigger", .obj [("type", .str "manual")])]
    position
    presentation := entryPresentation name
    inputs := [], outputs := [] }

end Node

namespace Graph

def addNode (g : Graph) (n : Node) : Except Fault Graph :=
  if g.hasNode n.id then .error (.repeatedNode n.id) else .ok { g with nodes := g.nodes ++ [n] }

/-- Goes on if a node has this id. -/
def requireNode (g : Graph) (id : String) : Except Fault Unit :=
  if g.hasNode id then .ok () else .error (.unknownNode id)

/-- Removes a node and every edge that touches it. -/
def deleteNode (g : Graph) (id : String) : Except Fault Graph := do
  g.requireNode id
  .ok ⟨g.nodes.filter (·.id != id), g.edges.filter fun e => e.source != id && e.target != id⟩

/-- Adds a structural edge; no graph is given where nothing changes. -/
def connect? (g : Graph) (source target : String) (branch : Branch) :
    Except Fault (Option Graph) := do
  g.requireNode source
  g.requireNode target
  let e := Edge.structural source target branch
  if source = target || g.edges.any (·.id == e.id) then .ok none
  else .ok (some { g with edges := g.edges ++ [e] })

def disconnect (g : Graph) (edgeId : String) : Graph :=
  { g with edges := g.edges.filter (·.id != edgeId) }

/-- Writes `changes` over the configuration of the nodes with this id. -/
def updateConfig (g : Graph) (id : String) (changes : Fields) : Except Fault Graph := do
  g.requireNode id
  let nodes ← g.nodes.mapM fun n =>
    if n.id = id then { n with config := n.config.update changes : Node }.refresh else .ok n
  .ok { g with nodes }

def moveNode (g : Graph) (id : String) (position : Point) : Except Fault Graph := do
  g.requireNode id
  .ok { g with nodes := g.nodes.map fun n => if n.id = id then { n with position } else n }

/-- The lowest place of a node, 100 above the top for an empty canvas. -/
def lowest (g : Graph) : Float :=
  match g.nodes with
  | [] => -100
  | n :: ns => ns.foldl (fun y m => if m.position.y > y then m.position.y else y) n.position.y

/-- Adds the entry of a new capability below all nodes. -/
def addCapability (g : Graph) (id : String) (name description : Json) : Except Fault Graph :=
  g.addNode (.createEntry id ⟨100, g.lowest + 200⟩ name description)

end Graph

end ScriptFlow
