import ScriptFlow.Layout.Components

/-!
Making a component acyclic: a depth-first search from its roots drops every arc to a vertex that the
search is still inside of.
-/

namespace ScriptFlow

/-- The state of a search. -/
structure Search where
  /-- Members that were not found yet. -/
  fresh : List Nat
  /-- Members in the order in which they were found. -/
  found : List Nat
  /-- The arcs that are kept, once each. -/
  dag : List (Nat × Nat)
deriving DecidableEq

namespace Search

def discover (s : Search) (v : Nat) : Search :=
  { s with fresh := s.fresh.erase v, found := s.found ++ [v] }

def keep (s : Search) (u v : Nat) : Search :=
  if s.dag.contains (u, v) then s else { s with dag := s.dag ++ [(u, v)] }

theorem fresh_keep (s : Search) (u v : Nat) : (s.keep u v).fresh = s.fresh := by
  unfold keep
  split <;> rfl

/-- What is left to do: every open vertex with its remaining targets. -/
def work : List (Nat × List Nat) → Nat
  | [] => 0
  | f :: rest => f.2.length + 1 + work rest

/-- Searches on from a stack of open vertices with the targets that were not tried yet. -/
def explore (targets : Nat → List Nat) (stack : List (Nat × List Nat)) (s : Search) : Search :=
  match stack with
  | [] => s
  | (_, []) :: rest => explore targets rest s
  | (u, v :: vs) :: rest =>
    if v = u ∨ v ∈ rest.map (·.1) then explore targets ((u, vs) :: rest) s
    else if _ : v ∈ s.fresh then
      explore targets ((v, targets v) :: (u, vs) :: rest) ((s.keep u v).discover v)
    else explore targets ((u, vs) :: rest) (s.keep u v)
termination_by (s.fresh.length, work stack)
decreasing_by
  · apply Prod.Lex.right
    simp [work]
  · apply Prod.Lex.right
    simp [work]
  · apply Prod.Lex.left
    have := List.length_pos_of_mem ‹_›
    simp only [discover, fresh_keep]
    rw [List.length_erase_of_mem ‹_›]
    omega
  · rw [fresh_keep]
    apply Prod.Lex.right
    simp [work]

/-- Searches from a vertex that was not found yet. -/
def visit (targets : Nat → List Nat) (s : Search) (v : Nat) : Search :=
  if v ∈ s.fresh then explore targets [(v, targets v)] (s.discover v) else s

end Search

namespace Component

/-- The arcs that do not lead back to a loop. -/
def forward (c : Component) : List (Nat × Nat) :=
  (c.arcs.filter (!·.isLoopBack)).map fun a => (a.source, a.target)

def targets (c : Component) (v : Nat) : List Nat :=
  (c.forward.filter (·.1 == v)).map (·.2)

def hasIncoming (c : Component) (v : Nat) : Bool := c.forward.any (·.2 == v)

/-- Members without incoming forward arcs, entries first. -/
def roots (c : Component) : List Nat :=
  let free := c.members.filter (!c.hasIncoming ·)
  let entries := free.filter (c.entries.contains ·)
  entries ++ free.filter (!entries.contains ·)

/-- The search over all members, from the roots on. -/
def search (c : Component) : Search :=
  (c.roots ++ c.members).foldl (Search.visit c.targets) ⟨c.members.eraseDups, [], []⟩

end Component

end ScriptFlow
