import ToolBatching.Program.Basic

namespace ToolBatching

/-- Segments that are scheduled together. -/
structure PrintUnit where
  /-- The segment whose footprint and tool stand for the unit. -/
  anchor : SegmentId
  /-- All segments of the unit in program order. -/
  members : List SegmentId
  tool : Option Tool
  deriving DecidableEq

namespace PrintUnit

/-- Cut segments behind each one that prints. The result is the printing segments,
each with the silent ones in front of it, and the silent ones at the end. -/
def cut : List Segment → List (List Segment × Segment) × List Segment
  | [] => ([], [])
  | s :: rest =>
      let (groups, tail) := cut rest
      if 0 < s.printMoves then (([], s) :: groups, tail)
      else
        match groups with
        | [] => ([], s :: tail)
        | (lead, anchor) :: more => ((s :: lead, anchor) :: more, tail)

/-- The unit of a printing segment and the silent ones in front of it. -/
def ofGroup (group : List Segment × Segment) : PrintUnit where
  anchor := group.2.id
  members := group.1.map Segment.id ++ [group.2.id]
  tool := group.2.tool

def attach (tail : List SegmentId) : List PrintUnit → List PrintUnit
  | [] => []
  | [u] => [{ u with members := u.members ++ tail }]
  | u :: v :: rest => u :: attach tail (v :: rest)

def ofSegments (segments : List Segment) : List PrintUnit :=
  match cut segments with
  | ([], []) => []
  | ([], first :: rest) =>
      [{ anchor := first.id, members := (first :: rest).map Segment.id, tool := first.tool }]
  | (groups, tail) => attach (tail.map Segment.id) (groups.map ofGroup)

end PrintUnit

/-- Scheduling units of a program in program order. -/
def Program.units (p : Program) : List PrintUnit :=
  p.layers.flatMap fun l => PrintUnit.ofSegments l.segments

end ToolBatching
