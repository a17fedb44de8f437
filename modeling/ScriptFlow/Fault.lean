import ScriptFlow.Graph.FlowError
import ScriptFlow.Schema.Basic
import ScriptFlow.Text.Literal

/-!
Why an operation on scripts or flows gives no result.
-/

namespace ScriptFlow

inductive Fault where
  /-- A value cannot be read as the record of this name. -/
  | schema (record : String) (issues : List Issue)
  /-- A flow with these errors cannot be saved. -/
  | notValid (errors : List FlowError)
  | unknownNode (id : String)
  | repeatedNode (id : String)
  | unknownBranch (value : Json)
  /-- The value that stands for a document has no fields. -/
  | noFields (value : Json)
deriving DecidableEq

/-- What kind of value it is that has no fields. -/
def Json.kindName : Json → String
  | .bool _ => "bool"
  | .int _ => "int"
  | .float _ => "float"
  | .str _ => "str"
  | _ => "list"

def Fault.message : Fault → String
  | schema record _ => record
  | notValid errors =>
    "Flow has " ++ errors.length.repr ++ " validation error(s); fix them before saving"
  | unknownNode id => "Node '" ++ id ++ "' not found"
  | repeatedNode id => "Node '" ++ id ++ "' already exists"
  | unknownBranch value => String.ofList value.literal ++ " is not a valid EdgeBranch"
  | noFields value => "'" ++ value.kindName ++ "' object has no attribute 'items'"

/-- A checked value, or the fault that it cannot be read as this record. -/
def Checked.orFault {α : Type} (record : String) (c : Checked α) : Except Fault α :=
  c.toExcept (Fault.schema record)

end ScriptFlow
