import ScriptFlow.Layout.Order

/-!
From rows to coordinates: nodes of one size at fixed distances, each row centred on the widest one,
components stacked from the top. The arithmetic is that of any type of coordinates.
-/

namespace ScriptFlow

/-- Numbers that places on the canvas are measured in. -/
class Coordinate (α : Type) extends Add α, Sub α, Mul α, Div α where
  ofNat : Nat → α

instance : Coordinate Float where
  ofNat := Float.ofNat

structure Geometry (α : Type) where
  nodeWidth : α
  nodeHeight : α
  horizontalSpacing : α
  verticalSpacing : α
  margin : α
  capabilityGap : α

/-- A vertex with its place. -/
structure Placement (α : Type) where
  vertex : Nat
  x : α
  y : α

namespace Geometry

variable {α : Type} [Coordinate α] (geo : Geometry α)

open Coordinate

def stepX : α := geo.nodeWidth + geo.horizontalSpacing

def stepY : α := geo.nodeHeight + geo.verticalSpacing

/-- The width of a row of `count` nodes. -/
def rowWidth (count : Nat) : α := ofNat count * geo.stepX - geo.horizontalSpacing

/-- The left end of a row of `count` nodes under a row of `widest`. -/
def rowStart (widest count : Nat) : α :=
  geo.margin + (geo.rowWidth widest - geo.rowWidth count) / ofNat 2

def placeRow (widest r : Nat) (row : List Nat) : List (Placement α) :=
  row.zipIdx.map fun p =>
    ⟨p.1, geo.rowStart widest row.length + ofNat p.2 * geo.stepX,
      geo.margin + ofNat r * geo.stepY⟩

def widest (rows : Rows) : Nat := (rows.map List.length).foldl max 0

/-- The places of a component that starts at the top. -/
def placeRows (rows : Rows) : List (Placement α) :=
  rows.zipIdx.flatMap fun p => geo.placeRow (widest rows) p.2 p.1

/-- The lower end of a component that starts at the top. -/
def bottom (rows : Rows) : α :=
  geo.margin + ofNat (rows.length - 1) * geo.stepY + geo.nodeHeight

/-- Places components below each other, the first one `offset` below the top. -/
def stack (offset : α) : List Rows → List (Placement α)
  | [] => []
  | rows :: rest =>
    ((geo.placeRows rows).map fun p => { p with y := p.y + offset }) ++
      stack (offset + (geo.bottom rows + geo.capabilityGap)) rest

end Geometry

/-- The places of all vertices of a topology. -/
def Topology.place {α : Type} [Coordinate α] (t : Topology) (geo : Geometry α) (sweeps : Nat) :
    List (Placement α) :=
  geo.stack (Coordinate.ofNat 0) (t.components.map (·.rows sweeps))

end ScriptFlow
