import ToolBatching.Clearance.Cell
import ToolBatching.Number.Hypotenuse

/-!
Search for two cells of two sets that lie within a radius of each other. `pairScan`
tries all pairs. `windowScan` looks up the cells of the square window around a
cell, which is quicker when the window has fewer cells than the set.
-/

namespace ToolBatching

/-- A distance test for cells: the edge of a cell, the radius, and how many cells the
radius spans. -/
structure Proximity where
  cellSize : Float
  radius : Float
  reach : Int

namespace Proximity

/-- The test for a radius over cells of a size. -/
def ofRadius (cellSize radius : Float) : Proximity :=
  { cellSize, radius
    reach := Number.clamped Number.minInt64 Number.maxInt64 Number.ceiling (radius / cellSize) }

/-- Whether two cells lie within the radius of each other, measured between cells. -/
def near (p : Proximity) (a b : Cell) : Bool :=
  let columns := a.columnsTo b
  let rows := a.rowsTo b
  columns ≤ p.reach.natAbs && rows ≤ p.reach.natAbs
    && Number.hypotenuse columns rows * p.cellSize ≤ p.radius

/-- Cells along one side of the window; none or less for a negative reach. -/
def side (p : Proximity) : Int :=
  2 * p.reach + 1

/-- Offsets along one side of the window, ascending. -/
def offsets (p : Proximity) : List Int :=
  (List.range p.side.toNat).map fun (i : Nat) => (i : Int) - p.reach

def window (p : Proximity) (a : Cell) : List Cell :=
  p.offsets.flatMap fun columns => p.offsets.map fun rows => a.offset columns rows

/-- A cell of the set near `a`, looked up in the window around `a`. -/
def windowScan (p : Proximity) (cells : CellSet) (a : Cell) : Option Cell :=
  (p.window a).find? fun b => cells.contains b && p.near a b

/-- A cell of a list near `a`, found by trying all. -/
def pairScan (p : Proximity) (cells : List Cell) (a : Cell) : Option Cell :=
  cells.find? (p.near a)

/-- Two near cells, the first of one set and the second of another. -/
def search (p : Proximity) (printing existing : CellSet) : Option (Cell × Cell) :=
  let listed := existing.toList
  printing.toList.findSome? fun a =>
    let found :=
      if p.side * p.side < existing.size then p.windowScan existing a else p.pairScan listed a
    found.map fun b => (a, b)

end Proximity

end ToolBatching
