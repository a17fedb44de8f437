import ScriptFlow.Fault
import ScriptFlow.Graph.Walk
import ScriptFlow.Json.Comparison
import ScriptFlow.Note
import ScriptFlow.Script.Document

/-!
Reading a document back from a flow graph: each entry gives a capability, and each node that the
walk from it meets gives an action.
-/

namespace ScriptFlow

/-- Whether a configuration holds a note with this content and digest already. -/
def holdsNote (config payload : Fields) : Bool :=
  match config.value noteKey with
  | .obj stored =>
    (Fields.value stored "content").same (payload.value "content") &&
      (Fields.value stored "configHash").same (payload.value "configHash")
  | _ => false

namespace Node

/-- The configuration that is saved: with the type of the node, and with its note if that has
content and a digest. -/
def savedConfig (n : Node) : Fields :=
  let type := if n.actionType = "" then (n.config.get? "type").getD (.str "")
    else .str n.actionType
  let config := n.config.set "type" type
  match Note.storable? (n.presentation.value "note") with
  | some payload =>
    if holdsNote config payload then config else config.set noteKey (.obj payload)
  | none => config

def leaf (n : Node) : Except Fault Action :=
  match n.savedConfig.value "type" with
  | .str type => .ok (.leaf type (n.savedConfig.without ["type"]))
  | v => .error (.schema "LeafAction" [⟨[.key "type"], .notText, v⟩])

def branch (n : Node) (thenBody elseBody : List Action) : Action :=
  .branch (n.savedConfig.get? "condition")
    (n.savedConfig.without ["type", "condition", "then", "else"]) thenBody elseBody

def loop (n : Node) (body : List Action) : Action :=
  let config := n.savedConfig
  if n.actionType = "while" then
    .loop (.whileLoop (config.get? "condition") (config.get? "maxIterations"))
      (config.without ["type", "condition", "maxIterations", "do"]) body
  else
    .loop (.forEach (config.get? "source") (config.get? "itemAs"))
      (config.without ["type", "source", "itemAs", "do"]) body

end Node

namespace Visit

mutual
/-- The action of a visited node. The first leaf whose type is no text is the fault. -/
def toAction : Visit → Except Fault Action
  | plain n => n.leaf
  | fork n whenTrue whenFalse => do
    let thenBody ← listToActions whenTrue
    let elseBody ← listToActions whenFalse
    .ok (n.branch thenBody elseBody)
  | loop n body => do
    let body ← listToActions body
    .ok (n.loop body)

def listToActions : List Visit → Except Fault (List Action)
  | [] => .ok []
  | v :: vs => do
    let a ← v.toAction
    let as ← listToActions vs
    .ok (a :: as)
end

end Visit

namespace Graph

/-- The fields of the capability of an entry node. A name that does not hold gives way to the label
of the node. -/
def capabilityFields (entry : Node) : Fields :=
  let name := entry.presentation.value "label"
  if !(entry.config.value "name").truthy && name.truthy then entry.config.set "name" name
  else entry.config

/-- The capability of an entry node. -/
def capability (g : Graph) (entry : Node) : Except Fault Capability := do
  let actions ← Visit.listToActions (g.walkFrom entry)
  (Capability.ofFieldsWith (capabilityFields entry) actions).orFault "Capability"

def capabilities (g : Graph) : Except Fault (List Capability) := g.entries.mapM g.capability

/-- The document of a flow, with the other keys of the document it was drawn from. -/
def rebuildWith (g : Graph) (extra : Fields) : Except Fault Document :=
  g.capabilities.map fun capabilities => ⟨capabilities, extra⟩

end Graph

/-- The keys of a document other than its capabilities. A value that does not hold stands for the
empty document. -/
def documentExtra (base : Json) : Except Fault Fields :=
  match base with
  | .obj fs => .ok (Fields.without fs ["capabilities"])
  | v => if v.truthy then .error (.noFields v) else .ok []

/-- The capabilities of a flow with the other keys of a document. A fault of the flow comes
first. -/
def Graph.rebuild (g : Graph) (base : Json) : Except Fault Document := do
  let capabilities ← g.capabilities
  let extra ← documentExtra base
  .ok ⟨capabilities, extra⟩

end ScriptFlow
