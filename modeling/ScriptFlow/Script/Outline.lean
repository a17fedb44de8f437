import ScriptFlow.Graph.Basic
import ScriptFlow.Script.Document

/-!
The outline of a document: its capabilities and actions numbered in pre-order from one, then before
else, and the tagged links between the numbers. The exits of an action are the numbers from which
the flow goes on after it: an empty branch of an `if` exits at the `if` itself, a loop at the loop.
-/

namespace ScriptFlow

/-- The two branches of an `if`. -/
inductive Side where
  | thenSide
  | elseSide
deriving DecidableEq

def Side.name : Side → String
  | thenSide => "then"
  | elseSide => "else"

/-- Where an action stands. -/
structure Spot where
  capability : String
  /-- The number of the `if` or the loop around it. -/
  parent : Option Nat
  /-- The branch whose first action it is. -/
  firstOf : Option Side
  inLoop : Bool
deriving DecidableEq

namespace Spot

def top (capability : String) : Spot := ⟨capability, none, none, false⟩

def inBranch (s : Spot) (parent : Nat) (side : Side) : Spot :=
  { s with parent := some parent, firstOf := some side }

def inBody (s : Spot) (parent : Nat) : Spot :=
  { s with parent := some parent, firstOf := none, inLoop := true }

def next (s : Spot) : Spot := { s with firstOf := none }

end Spot

inductive Item where
  | capability (number : Nat) (c : Capability)
  | action (number : Nat) (a : Action) (spot : Spot)
deriving DecidableEq

structure Link where
  source : Nat
  target : Nat
  branch : Branch
deriving DecidableEq

structure Outline where
  items : List Item
  links : List Link
deriving DecidableEq

namespace Action

mutual
/-- The count of an action and all actions in it. -/
def size : Action → Nat
  | leaf .. => 1
  | branch _ _ thenBody elseBody => 1 + listSize thenBody + listSize elseBody
  | loop _ _ body => 1 + listSize body

def listSize : List Action → Nat
  | [] => 0
  | a :: as => a.size + listSize as
end

mutual
/-- The items of an action with the number `n`. -/
def items (n : Nat) (spot : Spot) : Action → List Item
  | leaf t fields => [.action n (leaf t fields) spot]
  | branch condition extra thenBody elseBody =>
    .action n (branch condition extra thenBody elseBody) spot ::
      (listItems (n + 1) (spot.inBranch n .thenSide) thenBody ++
        listItems (n + 1 + listSize thenBody) (spot.inBranch n .elseSide) elseBody)
  | loop head extra body =>
    .action n (loop head extra body) spot :: listItems (n + 1) (spot.inBody n) body

/-- The items of a list of actions, the first with the number `n`. -/
def listItems (n : Nat) (spot : Spot) : List Action → List Item
  | [] => []
  | a :: as => a.items n spot ++ listItems (n + a.size) spot.next as
end

mutual
/-- The numbers from which the flow goes on after an action, each once. -/
def exits (n : Nat) : Action → List Nat
  | leaf .. => [n]
  | branch _ _ thenBody elseBody =>
    if thenBody.isEmpty && elseBody.isEmpty then [n]
    else
      listExits [n] (n + 1) thenBody ++ listExits [n] (n + 1 + listSize thenBody) elseBody
  | loop .. => [n]

/-- The exits of a list of actions that is entered from `fringe`. -/
def listExits (fringe : List Nat) (n : Nat) : List Action → List Nat
  | [] => fringe
  | a :: as => listExits (a.exits n) (n + a.size) as
end

/-- The link from an action to the first action of a body. -/
def entryLink (n : Nat) (tag : Branch) (first : Nat) (body : List Action) : List Link :=
  if body.isEmpty then [] else [⟨n, first, tag⟩]

mutual
/-- The links inside an action, those from it to its bodies included. -/
def links (n : Nat) : Action → List Link
  | leaf .. => []
  | branch _ _ thenBody elseBody =>
    listLinks [] (n + 1) thenBody ++ entryLink n .whenTrue (n + 1) thenBody ++
      listLinks [] (n + 1 + listSize thenBody) elseBody ++
        entryLink n .whenFalse (n + 1 + listSize thenBody) elseBody
  | loop _ _ body =>
    listLinks [] (n + 1) body ++ entryLink n .body (n + 1) body ++
      (listExits [] (n + 1) body).map (⟨·, n, .loopBack⟩)

/-- The links of a list of actions that is entered from `fringe`. -/
def listLinks (fringe : List Nat) (n : Nat) : List Action → List Link
  | [] => []
  | a :: as =>
    fringe.map (⟨·, n, .none⟩) ++ a.links n ++ listLinks (a.exits n) (n + a.size) as
end

end Action

namespace Capability

def size (c : Capability) : Nat := 1 + Action.listSize c.actions

def items (n : Nat) (c : Capability) : List Item :=
  .capability n c :: Action.listItems (n + 1) (.top c.title) c.actions

def links (n : Nat) (c : Capability) : List Link := Action.listLinks [n] (n + 1) c.actions

def outline (c : Capability) : Outline := ⟨c.items 1, c.links 1⟩

end Capability

namespace Document

/-- The parts of each capability, the first one with the number `n`. -/
def collect {α : Type} (part : Nat → Capability → List α) (n : Nat) : List Capability → List α
  | [] => []
  | c :: cs => part n c ++ collect part (n + c.size) cs

def outline (d : Document) : Outline :=
  ⟨collect Capability.items 1 d.capabilities, collect Capability.links 1 d.capabilities⟩

end Document

end ScriptFlow
