import ScriptFlow.Json.Basic

/-!
The palette: category, icon, description, required fields and default configuration of every known
action type, in palette order. A type outside it is a generic data action.
-/

namespace ScriptFlow

inductive Category where
  | entry
  | dom
  | control
  | data
  | client
  | llm
  | chrome
  | exit
deriving DecidableEq

def Category.name : Category → String
  | entry => "entry"
  | dom => "dom"
  | control => "control"
  | data => "data"
  | client => "client"
  | llm => "llm"
  | chrome => "chrome"
  | exit => "exit"

/-- What a required field has to hold. -/
inductive FieldKind where
  | text
  | number
  | variableName
deriving DecidableEq

def FieldKind.name : FieldKind → String
  | text => "text"
  | number => "number"
  | variableName => "variable"

/-- A field that a block cannot run without. -/
structure RequiredField where
  key : String
  kind : FieldKind
deriving DecidableEq

/-- Booleans are no numbers; any other field must be there and not be empty. -/
def RequiredField.isMissing (r : RequiredField) (config : Fields) : Bool :=
  match r.kind, config.value r.key with
  | .number, .int _ => false
  | .number, .float _ => false
  | .number, _ => true
  | _, .null => true
  | _, .str s => s == ""
  | _, .arr xs => xs.isEmpty
  | _, .obj fs => fs.isEmpty
  | _, _ => false

structure Block where
  type : String
  category : Category
  icon : String
  description : Option String := none
  required : List RequiredField := []
  defaults : Fields := []

namespace Catalog

/-- The type of the node that a capability starts with. -/
def capabilityType : String := "capability"

def genericIcon : String := "📦"

def blocks : List Block := [
  { type := "querySelector", category := .dom, icon := "🔍",
    description := some "Finds a single element on the page using a CSS selector.",
    required := [⟨"selector", .text⟩],
    defaults := [("selector", .str ""), ("saveAs", .str "element")] },
  { type := "querySelectorAll", category := .dom, icon := "🔍",
    description := some "Finds all elements matching a CSS selector and returns them as a list.",
    required := [⟨"selector", .text⟩],
    defaults := [("selector", .str ""), ("saveAs", .str "elements")] },
  { type := "click", category := .dom, icon := "👆",
    description := some "Clicks on an element on the page.", required := [⟨"target", .text⟩],
    defaults := [("target", .str "")] },
  { type := "remove", category := .dom, icon := "🗑️",
    description := some "Removes an element from the page DOM.", required := [⟨"target", .text⟩],
    defaults := [("target", .str "")] },
  { type := "setAttribute", category := .dom, icon := "✏️",
    description := some "Sets an attribute on an element.", required := [⟨"target", .text⟩] },
  { type := "getAttribute", category := .dom, icon := "📖",
    description := some "Gets an attribute value from an element.",
    required := [⟨"target", .text⟩] },
  { type := "getText", category := .dom, icon := "📝",
    description := some "Gets the text content from an element.", required := [⟨"target", .text⟩],
    defaults := [("target", .str ""), ("saveAs", .str "")] },
  { type := "setValue", category := .dom, icon := "✍️",
    description := some "Sets the value of an input field or textarea.",
    required := [⟨"target", .text⟩], defaults := [("target", .str ""), ("value", .str "")] },
  { type := "addStyle", category := .dom, icon := "🎨",
    description := some "Sets inline CSS styles on an element.", required := [⟨"target", .text⟩] },
  { type := "if", category := .control, icon := "🔀",
    description := some "Runs one branch when the condition holds and the other branch otherwise.",
    defaults := [("condition", .obj [("type", .str "exists"), ("target", .str "")])] },
  { type := "forEach", category := .control, icon := "🔁",
    description := some "Runs its body once for every item of a list.",
    defaults := [("source", .str ""), ("itemAs", .str "item")] },
  { type := "while", category := .control, icon := "🔄",
    description := some ("Runs its body while the condition holds, up to a maximum number of " ++
      "iterations."),
    defaults := [("condition", .obj [("type", .str "exists"), ("target", .str "")]),
      ("maxIterations", .int 10)] },
  { type := "wait", category := .control, icon := "⏱️",
    description := some "Pauses execution for a specified number of milliseconds.",
    required := [⟨"ms", .number⟩], defaults := [("ms", .int 1000)] },
  { type := "waitFor", category := .control, icon := "⏳",
    description := some "Waits until an element appears on the page.",
    required := [⟨"selector", .text⟩],
    defaults := [("selector", .str ""), ("timeout", .int 5000)] },
  { type := "startProcess", category := .control, icon := "▶️" },
  { type := "stopProcess", category := .control, icon := "⏹️" },
  { type := "registerCleanup", category := .control, icon := "🧹" },
  { type := "set", category := .data, icon := "📥",
    description := some "Sets a variable to a value for use later in the flow.",
    required := [⟨"variable", .variableName⟩],
    defaults := [("variable", .str ""), ("value", .str "")] },
  { type := "get", category := .data, icon := "📤",
    description := some "Gets the value of a previously set variable." },
  { type := "transform", category := .data, icon := "🔄",
    description := some "Transforms a value and stores the result." },
  { type := "merge", category := .data, icon := "🔗",
    description := some "Merges several lists into one." },
  { type := "callClient", category := .client, icon := "🌐",
    description := some "Calls a method on a registered API client.",
    required := [⟨"client", .text⟩, ⟨"method", .text⟩],
    defaults := [("client", .str ""), ("method", .str ""), ("params", .obj []),
      ("saveAs", .str "")] },
  { type := "inspectPage", category := .llm, icon := "🔬" },
  { type := "analyzeWithLLM", category := .llm, icon := "🤖" },
  { type := "callLLMForOperations", category := .llm, icon := "🧠" },
  { type := "executeSafeOperations", category := .llm, icon := "⚡" },
  { type := "executeScript", category := .llm, icon := "💻" },
  { type := "storage.get", category := .chrome, icon := "📂" },
  { type := "storage.set", category := .chrome, icon := "💾" },
  { type := "tabs.create", category := .chrome, icon := "🪟" },
  { type := "notify", category := .chrome, icon := "🔔",
    description := some "Shows a browser notification.",
    defaults := [("title", .str ""), ("message", .str "")] },
  { type := "translatePage", category := .chrome, icon := "🌍" },
  { type := "return", category := .exit, icon := "🚪",
    description := some "Stops the capability and returns a value." },
  { type := "capability", category := .entry, icon := "📥",
    description := some ("The entry point for this agent capability. When triggered, " ++
      "execution flows down from here.") }]

def block? (type : String) : Option Block := blocks.find? (·.type == type)

def isKnown (type : String) : Bool := (block? type).isSome

def category (type : String) : Category := ((block? type).map (·.category)).getD .data

def icon (type : String) : String := ((block? type).map (·.icon)).getD genericIcon

def description? (type : String) : Option String := (block? type).bind (·.description)

def required (type : String) : List RequiredField := ((block? type).map (·.required)).getD []

def defaults (type : String) : Fields := ((block? type).map (·.defaults)).getD []

/-- The blocks that can be dropped on the canvas. -/
def palette : List Block := blocks.filter (·.type != capabilityType)

end Catalog

def Block.toJson (b : Block) : Json :=
  .obj [("type", .str b.type), ("category", .str b.category.name), ("icon", .str b.icon),
    ("description", .str (b.description.getD "")), ("default_config", .obj b.defaults),
    ("required_fields", .arr (b.required.map fun r => .str r.key))]

end ScriptFlow
