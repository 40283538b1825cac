import ToolBatching.Optimization
import ToolBatching.Report.Json

namespace ToolBatching

namespace Statistics

def json (s : Statistics) : Json :=
  .object
    [("layers", .count s.layers), ("segments", .count s.segments), ("units", .count s.units),
      ("batches", .count s.batches), ("visits", .count s.visits),
      ("tool_changes_before", .count s.toolChangesBefore),
      ("tool_changes_after", .count s.toolChangesAfter), ("tower_layers", .count s.towerLayers),
      ("hops", .count s.hops), ("warnings", .count s.warnings)]

/-- The statistics as lines for the reader. -/
def lines (s : Statistics) : List String :=
  [s!"Layers:       {s.layers}",
    s!"Segments:     {s.segments} ({s.units} units)",
    s!"Batches:      {s.batches} ({s.visits} layer visits)",
    s!"Tool changes: {s.toolChangesBefore} -> {s.toolChangesAfter}",
    s!"Tower layers: {s.towerLayers}",
    s!"Z hops:       {s.hops}"]

end Statistics

end ToolBatching
