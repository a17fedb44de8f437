import ScriptFlow.Layout.Geometry
import ScriptFlow.Schema.Scalar
import ScriptFlow.Text.Lowercase

/-!
The settings of the editor: its environment, the geometry of layouts and the length of histories.
-/

namespace ScriptFlow

structure Settings where
  environment : String := "dev"
  logLevel : String := "INFO"
  nodeWidth : Float := 280
  nodeHeight : Float := 160
  horizontalSpacing : Float := 80
  verticalSpacing : Float := 150
  layoutMargin : Float := 50
  capabilityGap : Float := 100
  layoutSweeps : Nat := 4
  historyLimit : Nat := 100
  corsAllowedOrigins : String := "*"
  apiTitle : Option String := some "Agent Flow Studio"

namespace Settings

def standard : Settings := {}

def geometry (s : Settings) : Geometry Float :=
  ⟨s.nodeWidth, s.nodeHeight, s.horizontalSpacing, s.verticalSpacing, s.layoutMargin,
    s.capabilityGap⟩

def environments : List String := ["dev", "development", "qa", "uit", "prod"]

/-- The environment is kept in lower case. -/
def readEnvironment (v : Json) : Checked String := (Read.text v).map Text.lowercase

/-- Negative counts are read as zero. -/
def readCount (v : Json) : Checked Nat := (Read.integer v).map Int.toNat

/-- The title may be null. -/
def readTitle : Json → Checked (Option String)
  | .null => .accepted none
  | v => (Read.text v).map some

def ofFields (fs : Fields) : Checked Settings :=
  ((Read.field fs "ENVIRONMENT" standard.environment readEnvironment).map Settings.mk)
    |>.apply (Read.field fs "LOG_LEVEL" standard.logLevel Read.text)
    |>.apply (Read.field fs "FLOW_NODE_WIDTH" standard.nodeWidth Read.float)
    |>.apply (Read.field fs "FLOW_NODE_HEIGHT" standard.nodeHeight Read.float)
    |>.apply (Read.field fs "FLOW_HORIZONTAL_SPACING" standard.horizontalSpacing Read.float)
    |>.apply (Read.field fs "FLOW_VERTICAL_SPACING" standard.verticalSpacing Read.float)
    |>.apply (Read.field fs "FLOW_LAYOUT_MARGIN" standard.layoutMargin Read.float)
    |>.apply (Read.field fs "FLOW_CAPABILITY_GAP" standard.capabilityGap Read.float)
    |>.apply (Read.field fs "FLOW_LAYOUT_SWEEPS" standard.layoutSweeps readCount)
    |>.apply (Read.field fs "FLOW_HISTORY_LIMIT" standard.historyLimit readCount)
    |>.apply (Read.field fs "CORS_ALLOWED_ORIGINS" standard.corsAllowedOrigins Read.text)
    |>.apply (Read.field fs "API_TITLE" standard.apiTitle readTitle)

def ofJson : Json → Checked Settings := Read.record .value "Settings" ofFields

/-- What is said about an environment that is not one of the known ones. -/
def environmentNotice (environment : String) : String :=
  if environments.contains (Text.lowercase environment) then ""
  else
    "[SETTINGS] Warning: environment '" ++ environment ++ "' not in [" ++
      ", ".intercalate (environments.map fun e => "'" ++ e ++ "'") ++ "]\n"

def toJson (s : Settings) : Json :=
  .obj [("environment", .str s.environment), ("log_level", .str s.logLevel),
    ("node_width", .float s.nodeWidth), ("node_height", .float s.nodeHeight),
    ("horizontal_spacing", .float s.horizontalSpacing),
    ("vertical_spacing", .float s.verticalSpacing), ("layout_margin", .float s.layoutMargin),
    ("capability_gap", .float s.capabilityGap), ("layout_sweeps", .int s.layoutSweeps),
    ("history_limit", .int s.historyLimit),
    ("cors_allowed_origins", .str s.corsAllowedOrigins),
    ("api_title", (s.apiTitle.map Json.str).getD .null)]

end Settings

end ScriptFlow
