import ScriptFlow.Edit
import ScriptFlow.Graph.Schema

/-!
Edit commands as a canvas sends them: nodes, places and tags are still unchecked values. Ids of new
nodes are drawn from a counter.
-/

namespace ScriptFlow

inductive Command where
  | addNode (node : Json)
  | addBlock (type : Json) (position : Option Json) (config : Fields)
  | deleteNode (id : String)
  | connect (source target : String) (branch : Json)
  | disconnect (edgeId : String)
  | update (id : String) (changes : Fields)
  | move (id : String) (position : Json)
  | addCapability (name description : Json)

/-- The id for the `n`-th draw: twelve hexadecimal digits. -/
def drawnId (stem : String) (n : Nat) : String := stem ++ "_" ++ String.ofList (hexDigits 12 n)

/-- What a command that succeeds leads to. -/
structure Change where
  /-- The new graph, if the command changed anything. -/
  graph? : Option Graph
  /-- The node that was created. -/
  created? : Option Node := none

namespace Change

def ofGraph (g : Graph) : Change := { graph? := some g }

def graph (c : Change) (before : Graph) : Graph := c.graph?.getD before

end Change

def Branch.ofJson (v : Json) : Except Fault Branch :=
  match v with
  | .str s =>
    match ofName? s with
    | .some b => .ok b
    | .none => .error (.unknownBranch v)
  | _ => .error (.unknownBranch v)

namespace Command

def readPosition (v : Json) : Except Fault Point := (Point.ofJson .value v).orFault "Position"

def readPosition? : Option Json → Except Fault Point
  | some v => readPosition v
  | none => .ok .zero

/-- Drops a new block with the drawn id on the canvas. -/
def dropBlock (g : Graph) (id : String) (type : Json) (position : Point) (config : Fields) :
    Except Fault Change :=
  match type with
  | .str type => do
    let n ← Node.create id type position config
    .ok { graph? := some (← g.addNode n), created? := some n }
  | v => .error (.schema "FlowNode" [⟨[.key "action_type"], .notText, v⟩])

/-- Carries out a command on a graph after `drawn` draws. The answer holds the count of draws after
it. -/
def run (g : Graph) (drawn : Nat) : Command → Nat × Except Fault Change
  | addNode node =>
    (drawn, do
      let n ← (Node.ofJson .value node).orFault "FlowNode"
      .ok (.ofGraph (← g.addNode n)))
  | addBlock type position config =>
    match readPosition? position with
    | .error f => (drawn, .error f)
    | .ok p => (drawn + 1, dropBlock g (drawnId "node" (drawn + 1)) type p config)
  | deleteNode id => (drawn, Change.ofGraph <$> g.deleteNode id)
  | connect source target branch =>
    (drawn, do
      let b ← Branch.ofJson branch
      .ok { graph? := ← g.connect? source target b })
  | disconnect edgeId => (drawn, .ok (.ofGraph (g.disconnect edgeId)))
  | update id changes => (drawn, Change.ofGraph <$> g.updateConfig id changes)
  | move id position =>
    (drawn, do
      let p ← readPosition position
      .ok (.ofGraph (← g.moveNode id p)))
  | addCapability name description =>
    (drawn + 1,
      Change.ofGraph <$> g.addCapability (drawnId "capability" (drawn + 1)) name description)

/-- The name and the description of a capability that is added without any. -/
def newCapabilityName : Json := .str "new_capability"

def newCapabilityDescription : Json := .str "A new capability"

end Command

end ScriptFlow
