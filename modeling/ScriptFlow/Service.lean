import ScriptFlow.Session.Basic

/-!
The service: answers to a method, a path and a JSON body. Bodies are checked first; a body that
cannot be read is answered with its faults. An answer is sent as JSON text, and one that has no such
text is not sent.
-/

namespace ScriptFlow

structure Response where
  status : Nat
  body : Json

namespace Service

inductive Route where
  | health
  | catalog
  | compile
  | layout
  | annotate
  | validate
  | reconstruct
deriving DecidableEq

def Route.all : List Route :=
  [.health, .catalog, .compile, .layout, .annotate, .validate, .reconstruct]

def Route.path : Route → String
  | health => "/health"
  | catalog => "/catalog"
  | compile => "/flows/compile"
  | layout => "/flows/layout"
  | annotate => "/flows/annotate"
  | validate => "/flows/validate"
  | reconstruct => "/flows/reconstruct"

def Route.method : Route → String
  | health | catalog => "GET"
  | _ => "POST"

/-- The answer in place of one that cannot be given. Its body is this text, and not JSON. -/
def failed : Response := ⟨500, .str "Internal Server Error"⟩

/-- An answer that is written out as JSON. There is no numeral for a number that is not finite, so
it fails when there is one in the body. -/
def written (status : Nat) (body : Json) : Response :=
  if body.isFinite then ⟨status, body⟩ else failed

/-- The answer to an accepted request: its result, encoded and written out. -/
def ok (body : Json) : Response := written 200 body.encoded

/-- The answer to a request that is refused, with what is said of it written out as it is. -/
def detail (status : Nat) (v : Json) : Response := written status (.obj [("detail", v)])

def issueList (issues : List Issue) : Json := .arr (issues.map Issue.report)

/-- A fault of an accepted request. Only what cannot be read is answered. -/
def ofFault : Fault → Response
  | .schema _ issues => detail 422 (issueList issues)
  | _ => failed

def ofResult {α : Type} (f : α → Response) : Except Fault α → Response
  | .ok a => f a
  | .error e => ofFault e

def ofChecked {α : Type} (f : α → Response) : Checked α → Response
  | .accepted a => f a
  | .refused issues => detail 422 (issueList issues).encoded

/-- A request body read as `α`; a request without one is refused. -/
def readBody {α : Type} (check : Json → Checked α) : Option Json → Checked α
  | some v => (check v).under (.key "body")
  | none => .refused [⟨[.key "body"], .missing, .null⟩]

/-- A request for the document of a graph. -/
structure RebuildRequest where
  graph : Graph
  /-- The document that the graph was drawn from. -/
  base : Fields
  /-- Whether errors of the flow are overlooked. -/
  force : Bool

def readGraph : Json → Checked Graph := Graph.ofJson .request

def readRebuild : Json → Checked RebuildRequest :=
  Read.record .request "ReconstructRequest" fun fs =>
    ((Graph.ofFields .request fs).map RebuildRequest.mk)
      |>.apply (Read.field fs "original" [] Read.object)
      |>.apply (Read.field fs "force" false Read.boolean)

def errorList (errors : List FlowError) : Json := .arr (errors.map FlowError.toJson)

def catalogBody : Json :=
  .obj [("count", .int Catalog.palette.length), ("blocks", .arr (Catalog.palette.map Block.toJson))]

def healthBody : Json :=
  .obj [("status", .str "ok"), ("environment", .str Settings.standard.environment)]

def compileBody (fs : Fields) : Response :=
  ofResult (fun g => ok g.toJson) do
    let d ← (Document.ofJson (.obj fs)).orFault "ScriptDocument"
    d.load .standard

def validateBody (g : Graph) : Response :=
  let errors := g.validate
  ok (.obj [("valid", .bool errors.isEmpty), ("errors", errorList errors)])

/-- The document of a graph, refused while the flow has errors unless forced. -/
def rebuildBody (r : RebuildRequest) : Response :=
  let errors := r.graph.validate
  if !errors.isEmpty && !r.force then
    detail 400 (.obj [("message", .str "Flow has validation errors"),
      ("errors", errorList errors)])
  else
    ofResult (fun d => ok (.obj [("document", d.toJson), ("forced", .bool !errors.isEmpty)]))
      (r.graph.rebuild (.obj r.base))

def Route.answer (body : Option Json) : Route → Response
  | health => ok healthBody
  | catalog => ok catalogBody
  | compile => ofChecked compileBody (readBody Read.object body)
  | layout => ofChecked (fun g => ok (g.arrange .standard).toJson) (readBody readGraph body)
  | annotate => ofChecked (fun g => ok g.annotate.toJson) (readBody readGraph body)
  | validate => ofChecked validateBody (readBody readGraph body)
  | reconstruct => ofChecked rebuildBody (readBody readRebuild body)

def respond (method path : String) (body : Option Json) : Response :=
  match Route.all.find? (·.path == path) with
  | none => detail 404 (.str "Not Found")
  | some r =>
    if r.method = method then r.answer body else detail 405 (.str "Method Not Allowed")

end Service

end ScriptFlow
