import ScriptFlow.Session.Basic

/-!
Runs of requests to a session, and of edit commands on a graph. A request that fails leaves its
session as it was.
-/

namespace ScriptFlow

inductive Request where
  | edit (c : Command)
  | undo
  | redo
  | relayout
  | save
  | validate
  | graph
  | document

/-- What a request is answered with. -/
inductive Reply where
  | done
  | created (n : Node)
  | saved (d : Document)
  | errors (es : List FlowError)
  | graph (g : Graph)
  | document (d : Document)

namespace Session

def replyTo (c : Change) : Reply :=
  match c.created? with
  | some n => .created n
  | none => .done

/-- Carries out a request after `drawn` draws. The answer holds the count of draws after it. -/
def perform (s : Session) (drawn : Nat) : Request → Nat × Except Fault (Session × Reply)
  | .edit c =>
    let (drawn, result) := s.edit drawn c
    (drawn, result.map fun r => (r.1, replyTo r.2))
  | .undo => (drawn, .ok (s.undo, .done))
  | .redo => (drawn, .ok (s.redo, .done))
  | .relayout => (drawn, .ok (s.relayout, .done))
  | .save => (drawn, s.save.map fun s => (s, .saved s.document))
  | .validate => (drawn, .ok (s, .errors s.graph.validate))
  | .graph => (drawn, .ok (s, .graph s.graph))
  | .document => (drawn, .ok (s, .document s.document))

/-- The session after each request, with the reply to it. -/
def trace (s : Session) (drawn : Nat) : List Request → List (Session × Except Fault Reply)
  | [] => []
  | r :: rs =>
    match s.perform drawn r with
    | (drawn, .ok (s, reply)) => (s, .ok reply) :: trace s drawn rs
    | (drawn, .error f) => (s, .error f) :: trace s drawn rs

end Session

/-- The graph after each command, with the change or the fault. -/
def Graph.trace (g : Graph) (drawn : Nat) : List Command → List (Graph × Except Fault Change)
  | [] => []
  | c :: cs =>
    match c.run g drawn with
    | (drawn, .ok change) => (change.graph g, .ok change) :: trace (change.graph g) drawn cs
    | (drawn, .error f) => (g, .error f) :: trace g drawn cs

end ScriptFlow
