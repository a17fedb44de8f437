import ScriptFlow.Catalog
import ScriptFlow.Graph.Basic

/-!
What can be wrong with a flow, and what is said about it.
-/

namespace ScriptFlow

inductive FlowError where
  | noEntry
  /-- An edge ends at an id that no node has. -/
  | missingEnd (edge node : String)
  | disconnected (node : String)
  /-- A condition with two edges for one outcome. -/
  | repeatedOutcome (node : String) (branch : Branch)
  | repeatedBody (node : String)
  | missingField (node : String) (field : RequiredField)
deriving DecidableEq

namespace FlowError

/-- The node that the error is shown at. -/
def node? : FlowError → Option String
  | noEntry | missingEnd .. => none
  | disconnected n | repeatedOutcome n _ | repeatedBody n | missingField n _ => some n

def message : FlowError → String
  | noEntry => "Flow must have at least one capability entry node"
  | missingEnd edge node => "Edge " ++ edge ++ ": node '" ++ node ++ "' not found"
  | disconnected _ => "Node is disconnected from the flow"
  | repeatedOutcome _ branch => "Condition has more than one '" ++ branch.name ++ "' branch"
  | repeatedBody _ => "Loop has more than one body edge"
  | missingField _ field =>
    "Missing required field '" ++ field.key ++ "'" ++
      (if field.kind = .number then " (must be a number)" else "")

def toJson (e : FlowError) : Json :=
  .obj [("nodeId", (e.node?.map Json.str).getD .null), ("message", .str e.message)]

end FlowError

end ScriptFlow
