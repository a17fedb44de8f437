import ScriptFlow.Catalog
import ScriptFlow.Text.Literal

/-!
The short label of a node on the canvas, from its action type and its configuration.
-/

namespace ScriptFlow

/-- The first characters of a text; nothing of any other value. -/
def Json.clip (length : Nat) : Json → String
  | .str s => String.ofList (s.toList.take length)
  | _ => ""

def label (type : String) (config : Fields) : String :=
  match type with
  | "querySelector" | "querySelectorAll" =>
    let selector := (config.value "selector").clip 30
    if selector = "" then type else selector
  | "click" | "remove" => type ++ " " ++ (config.value "target").clip 20
  | "setValue" => type ++ " \"" ++ (config.value "value").clip 15 ++ "\""
  | "wait" => "wait " ++ (config.value "ms").text ++ "ms"
  | "waitFor" => "waitFor " ++ (config.value "selector").clip 20
  | "if" => "if condition"
  | "forEach" => "forEach " ++ ((config.value "source").orElse (.str "items")).text
  | "while" => "while loop"
  | "set" | "get" => type ++ " " ++ ((config.value "variable").orElse (.str "var")).text
  | "callClient" => (config.value "client").text ++ "." ++ (config.value "method").text
  | "notify" => "notify \"" ++ (config.value "title").clip 15 ++ "\""
  | _ => if type = "" then "action" else type

end ScriptFlow
