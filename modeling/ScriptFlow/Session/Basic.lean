import ScriptFlow.Dataflow
import ScriptFlow.Layout.Apply
import ScriptFlow.Script.Rebuild
import ScriptFlow.Session.Command
import ScriptFlow.Session.History
import ScriptFlow.Settings
import ScriptFlow.Validation

/-!
Loading and saving of flows, and editor sessions. A session keeps the history of its graph, each
snapshot with data edges computed afresh, and the digest of the graph that was saved last. Only a
flow without errors is saved.
-/

namespace ScriptFlow

def Graph.arrange (g : Graph) (settings : Settings) : Graph :=
  g.layout settings.geometry settings.layoutSweeps

/-- A document as a laid-out flow with data edges. -/
def Document.load (d : Document) (settings : Settings) : Except Fault Graph := do
  let g ← d.draw defaultStem
  .ok (g.arrange settings).annotate

/-- Goes on if a flow has no errors. -/
def Graph.requireValid (g : Graph) : Except Fault Unit :=
  let errors := g.validate
  if errors.isEmpty then .ok () else .error (.notValid errors)

/-- The document of a valid flow, with the other keys of the one it was drawn from. -/
def Graph.save (g : Graph) (base : Json) : Except Fault Document := do
  g.requireValid
  g.rebuild base

def Graph.saveWith (g : Graph) (extra : Fields) : Except Fault Document := do
  g.requireValid
  g.rebuildWith extra

structure Session where
  settings : Settings
  document : Document
  history : History Graph
  savedDigest : String

namespace Session

def start (d : Document) (settings : Settings) : Except Fault Session := do
  let g ← d.load settings
  .ok ⟨settings, d, .start g, g.digest⟩

def graph (s : Session) : Graph := s.history.current

def hasChanges (s : Session) : Bool := s.graph.digest != s.savedDigest

/-- Records an edited graph with its data edges computed afresh. -/
def commit (s : Session) (g : Graph) : Session :=
  { s with history := s.history.record s.settings.historyLimit g.stripDataEdges.annotate }

/-- A command that changed nothing records nothing. -/
def commitChange (s : Session) (c : Change) : Session :=
  match c.graph? with
  | some g => s.commit g
  | none => s

def undo (s : Session) : Session := { s with history := s.history.undo }

def redo (s : Session) : Session := { s with history := s.history.redo }

def relayout (s : Session) : Session := s.commit (s.graph.arrange s.settings)

/-- Saves the current graph as the document of the session. -/
def save (s : Session) : Except Fault Session := do
  let d ← s.graph.saveWith s.document.extra
  .ok { s with document := d, savedDigest := s.graph.digest }

/-- Carries out an edit command. -/
def edit (s : Session) (drawn : Nat) (c : Command) : Nat × Except Fault (Session × Change) :=
  let (drawn, result) := c.run s.graph drawn
  (drawn, result.map fun change => (s.commitChange change, change))

/-- The figures of a session. -/
def stats (s : Session) : Fields :=
  [("node_count", .int s.graph.nodes.length),
    ("edge_count", .int s.graph.structuralEdges.length),
    ("data_edge_count", .int s.graph.dataEdges.length),
    ("capability_count", .int s.graph.entries.length),
    ("history_size", .int s.history.size),
    ("error_count", .int s.graph.validate.length),
    ("has_changes", .bool s.hasChanges)]

end Session

end ScriptFlow
