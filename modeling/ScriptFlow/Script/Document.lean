import ScriptFlow.Schema.Basic
import ScriptFlow.Script.Equality

/-!
Capabilities and script documents. A capability has a name, a description, parameters and a trigger,
each of which may be left out, and its actions; a document has capabilities. Every other key is kept
as it is.
-/

namespace ScriptFlow

/-- The described part is `none` where a key was not supplied. -/
structure Capability where
  name : Option String
  description : Option String
  parameters : Option (List Json)
  trigger : Option Json
  extra : Fields
  actions : List Action
deriving DecidableEq

structure Document where
  capabilities : List Capability
  extra : Fields
deriving DecidableEq

namespace Capability

def knownKeys : List String := ["name", "description", "parameters", "trigger", "actions"]

/-- Everything but the actions; only what was supplied is written. -/
def metadata (c : Capability) : Fields :=
  optionalField "name" (c.name.map .str) ++ optionalField "description" (c.description.map .str) ++
    optionalField "parameters" (c.parameters.map .arr) ++ optionalField "trigger" c.trigger ++
    c.extra

def toJson (c : Capability) : Json :=
  .obj (c.metadata ++ [("actions", .arr (Action.listToJson c.actions))])

/-- The name, empty when it was left out. -/
def title (c : Capability) : String := c.name.getD ""

/-- Null stands for the empty text. -/
def readText : Json → Checked (Option String)
  | .null => .accepted (some "")
  | v => (Read.text v).map some

/-- Null stands for the empty list. -/
def readParameters : Json → Checked (Option (List Json))
  | .null => .accepted (some [])
  | v => (Read.list .accepted v).map some

/-- Reads a capability around actions that are already known. -/
def ofFieldsWith (fs : Fields) (actions : List Action) : Checked Capability :=
  ((Read.field fs "name" none readText).map fun name description parameters =>
      { name, description, parameters, trigger := fs.get? "trigger",
        extra := fs.without knownKeys, actions : Capability })
    |>.apply (Read.field fs "description" none readText)
    |>.apply (Read.field fs "parameters" none readParameters)

def ofFields (fs : Fields) : Checked Capability :=
  ofFieldsWith fs (Action.listOfJson (fs.value "actions"))

def ofJson : Json → Checked Capability := Read.record .value "Capability" ofFields

end Capability

namespace Document

def toJson (d : Document) : Json :=
  .obj (d.extra ++ [("capabilities", .arr (d.capabilities.map Capability.toJson))])

/-- Null stands for no capabilities. -/
def readCapabilities : Json → Checked (List Capability)
  | .null => .accepted []
  | v => Read.list Capability.ofJson v

def ofJson : Json → Checked Document :=
  Read.record .value "ScriptDocument" fun fs =>
    (Read.field fs "capabilities" [] readCapabilities).map fun capabilities =>
      { capabilities, extra := fs.without ["capabilities"] }

end Document

end ScriptFlow
