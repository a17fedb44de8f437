import ScriptFlow.Layout.Rank

/-!
The order of the members within each row. A sweep sorts the rows downward by the mean place of the
predecessors of each member, then upward by that of its successors; a member without any keeps its
place as its mean, and equal means keep their order.
-/

namespace ScriptFlow

/-- The rows of a component, from the top, each from the left. -/
abbrev Rows := List (List Nat)

namespace Rows

/-- The place of a member in its row. -/
def slot (rows : Rows) (v : Nat) : Nat := (rows.findSome? (·.idxOf? v)).getD 0

end Rows

/-- The mean `total / count` of some places, and the present place. -/
structure Weight where
  total : Nat
  count : Nat
  slot : Nat

namespace Weight

/-- The smaller mean first, then the smaller place. -/
def le (a b : Weight) : Bool :=
  let left := a.total * b.count
  let right := b.total * a.count
  left < right || (left == right && a.slot ≤ b.slot)

def of (rows : Rows) (neighbours : List Nat) (v : Nat) : Weight :=
  match neighbours with
  | [] => ⟨rows.slot v, 1, rows.slot v⟩
  | ns => ⟨ns.foldl (fun total n => total + rows.slot n) 0, ns.length, rows.slot v⟩

end Weight

namespace Rows

def sortRow (rows : Rows) (neighbours : Nat → List Nat) (row : List Nat) : List Nat :=
  ((row.map fun v => (Weight.of rows (neighbours v) v, v)).mergeSort fun a b => a.1.le b.1).map
    (·.2)

def reorder (neighbours : Nat → List Nat) (rows : Rows) (r : Nat) : Rows :=
  rows.modify r (sortRow rows neighbours)

/-- Down by predecessors, then up by successors. -/
def sweep (dag : List (Nat × Nat)) (rows : Rows) : Rows :=
  let before v := (dag.filter (·.2 == v)).map (·.1)
  let after v := (dag.filter (·.1 == v)).map (·.2)
  let down := (List.range' 1 (rows.length - 1)).foldl (reorder before) rows
  ((List.range (rows.length - 1)).reverse).foldl (reorder after) down

def sweeps (dag : List (Nat × Nat)) : Nat → Rows → Rows
  | 0, rows => rows
  | n + 1, rows => sweeps dag n (sweep dag rows)

/-- The rows of ranked members, each in the given order. -/
def ofRanks (ranks : List (Nat × Nat)) : Rows :=
  let depth := (ranks.map (·.2 + 1)).foldl max 0
  (List.range depth).map fun r => (ranks.filter (·.2 == r)).map (·.1)

end Rows

/-- The rows of a component after some sweeps. -/
def Component.rows (c : Component) (sweeps : Nat) : Rows :=
  let s := c.search
  Rows.sweeps s.dag sweeps (.ofRanks (c.ranks s))

end ScriptFlow
