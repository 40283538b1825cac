import ToolBatching.Clearance.Cell
import ToolBatching.Program.Basic

namespace ToolBatching

/-- Material of one segment as seen from above, with the tool and height it is
printed at. -/
structure Footprint where
  tool : Option Tool
  z : Float
  cells : CellSet
  bounds : Option Box

namespace Footprint

def insert (cellSize : Float) (f : Footprint) (x y : Float) : Footprint :=
  { f with
    cells := f.cells.insert (Cell.around cellSize x y)
    bounds := some (Box.insert? f.bounds x y) }

/-- Replay one command and add its end point if it deposits material. -/
def record (cellSize : Float) (state : Machine × Footprint) (c : Command) : Machine × Footprint :=
  let (m, f) := state
  let next := m.step c
  if m.extruded c ≤ 0 || !c.isMotion || c.inToolChange then (next, f)
  else (next, f.insert cellSize next.x next.y)

def ofSegment (cellSize : Float) (s : Segment) : Footprint :=
  (s.commands.foldl (record cellSize)
    (s.entry, { tool := s.tool, z := s.z, cells := ∅, bounds := none })).2

def isEmpty (f : Footprint) : Bool :=
  f.cells.isEmpty

end Footprint

end ToolBatching
