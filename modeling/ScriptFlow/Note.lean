import ScriptFlow.Digest
import ScriptFlow.Json.Canonical
import ScriptFlow.Schema.Basic
import ScriptFlow.Text.Literal
import ScriptFlow.Variables

/-!
Notes on nodes. A note is stored in a configuration together with the digest of the configuration
it describes, and is stale when the digest is not that of the present configuration.
-/

namespace ScriptFlow

structure Note where
  content : String
  digest : Option String
deriving DecidableEq

/-- The text whose digest stands for a configuration: the canonical text without the note. -/
def configText (config : Fields) : List Char :=
  (Json.obj (config.without [noteKey])).canonicalChars

/-- The first twelve digits of the digest of a configuration. -/
def configDigest (config : Fields) : String :=
  String.ofList ((Digest.ofAscii (configText config)).toList.take 12)

namespace Note

/-- A digest is a text or null. -/
def readDigest : Json → Checked (Option String)
  | .null => .accepted none
  | v => (Read.text v).map some

/-- A note from the fields of its record; no content is the empty text. -/
def ofFields (fs : Fields) : Checked Note :=
  ((Read.field fs "content" "" Read.text).map Note.mk).apply
    (Read.field fs "config_hash" none readDigest)

def ofJson : Json → Checked Note := Read.record .value "NodeNote" ofFields

/-- A note from a stored payload, if its content holds. The content is kept as text. -/
def ofPayload? (payload : Fields) : Option (Checked Note) :=
  let content := payload.value "content"
  if content.truthy then
    some ((readDigest (payload.value "configHash")).under (.key "config_hash")
      |>.map fun digest => ⟨content.text, digest⟩)
  else none

/-- The note that is attached to a configuration. -/
def ofConfig? (config : Fields) : Option (Checked Note) :=
  (config.value noteKey).fields?.bind ofPayload?

/-- The stored form. -/
def payload (n : Note) : Fields :=
  [("content", .str n.content), ("configHash", (n.digest.map Json.str).getD .null)]

/-- A note without a digest, or with that of another configuration, is stale. -/
def isStale (n : Note) (config : Fields) : Bool :=
  match n.digest with
  | none => true
  | some d => d = "" || d != configDigest config

/-- The form that the canvas shows. -/
def shown (n : Note) (config : Fields) : Fields :=
  n.payload ++ [("stale", .bool (n.isStale config))]

/-- What is stored of a shown note: nothing unless it has content and a digest. -/
def storable? : Json → Option Fields
  | .obj fs =>
    let content := Fields.value fs "content"
    let digest := (Fields.value fs "configHash").orElse (Fields.value fs "config_hash")
    if content.truthy && digest.truthy then some [("content", content), ("configHash", digest)]
    else none
  | _ => none

/-- The shown form of a shown or stored note against the present configuration. -/
def refresh? (shownNote : Json) (config : Fields) : Option (Checked Fields) :=
  (shownNote.fields?.bind ofPayload?).map fun n => n.map (·.shown config)

end Note

end ScriptFlow
