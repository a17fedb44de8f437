import ScriptFlow.Layout.Topology

/-!
The weakly connected classes of a topology, by a forest of parent links. A parent is never later
than its child, so the root of a tree is its earliest vertex and every search for it ends.
-/

namespace ScriptFlow

structure Forest where
  parent : Nat → Nat
  parent_le : ∀ v, parent v ≤ v

namespace Forest

/-- Every vertex alone. -/
def discrete : Forest := ⟨id, fun _ => Nat.le_refl _⟩

/-- Makes `p` the parent of `v`. -/
def setParent (f : Forest) (v p : Nat) (h : p ≤ v) : Forest where
  parent i := if i = v then p else f.parent i
  parent_le i := by
    split
    · next hi => exact hi ▸ h
    · exact f.parent_le i

theorem grandparent_le (f : Forest) (v : Nat) : f.parent (f.parent v) ≤ v :=
  Nat.le_trans (f.parent_le _) (f.parent_le v)

theorem grandparent_lt (f : Forest) {v : Nat} (h : f.parent v ≠ v) :
    f.parent (f.parent v) < v :=
  Nat.lt_of_le_of_lt (f.parent_le _) (Nat.lt_of_le_of_ne (f.parent_le v) h)

/-- The root above `v`, and the forest with the way there halved: each vertex passed is hung under
its grandparent. -/
def find (f : Forest) (v : Nat) : Nat × Forest :=
  if h : f.parent v = v then (v, f)
  else
    have := f.grandparent_lt h
    find (f.setParent v (f.parent (f.parent v)) (f.grandparent_le v)) (f.parent (f.parent v))
termination_by v

def root (f : Forest) (v : Nat) : Nat := (f.find v).1

/-- Joins the trees of the two ends of an arc; the earlier root stays. -/
def join (f : Forest) (a : Arc) : Forest :=
  let (s, f) := f.find a.source
  let (t, f) := f.find a.target
  if h : s < t then f.setParent t s (Nat.le_of_lt h)
  else f.setParent s t (Nat.le_of_not_lt h)

end Forest

namespace Topology

def forest (t : Topology) : Forest := t.arcs.foldl Forest.join .discrete

/-- The vertices with one root each, in node order; classes in the order of their first member. -/
def classes (t : Topology) : List (List Nat) :=
  let f := t.forest
  let rooted := t.order.map fun v => (v, f.root v)
  let groups := ((rooted.map (·.2)).eraseDups).map fun r =>
    (rooted.filter (·.2 == r)).map (·.1)
  groups.mergeSort fun a b => a.headD 0 ≤ b.headD 0

end Topology

/-- The members of one class and the arcs between them. -/
structure Component where
  members : List Nat
  entries : List Nat
  arcs : List Arc
deriving DecidableEq

namespace Topology

def component (t : Topology) (members : List Nat) : Component :=
  ⟨members, t.entries, t.arcs.filter fun a => members.contains a.source⟩

def components (t : Topology) : List Component := t.classes.map t.component

end Topology

end ScriptFlow
