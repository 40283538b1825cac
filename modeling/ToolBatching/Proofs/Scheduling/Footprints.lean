import ToolBatching.Clearance.Basic

namespace ToolBatching

namespace Footprint

theorem tool_record (cellSize : Float) (state : Machine × Footprint) (c : Command) :
    (record cellSize state c).2.tool = state.2.tool := by
  unfold record
  simp only
  split <;> rfl

theorem tool_foldl_record (cellSize : Float) (state : Machine × Footprint)
    (commands : List Command) :
    (commands.foldl (record cellSize) state).2.tool = state.2.tool := by
  induction commands generalizing state with
  | nil => rfl
  | cons c commands ih => rw [List.foldl_cons, ih, tool_record]

theorem tool_ofSegment (cellSize : Float) (s : Segment) : (ofSegment cellSize s).tool = s.tool :=
  tool_foldl_record cellSize _ s.commands

end Footprint

namespace Clearance

variable (p : Program) (nozzle : Nozzle) (settings : ClearanceSettings)

theorem footprint?_ofProgram (id : SegmentId) :
    (ofProgram p nozzle settings).footprint? id =
      (p.segment? id).map (Footprint.ofSegment settings.cellSize) := by
  unfold footprint? Program.segment? Program.layer? ofProgram
  by_cases hzero : id.layer = 0
  · simp only [hzero, if_true, Option.bind_none, Option.map_none]
  · simp only [hzero, if_false, List.getElem?_toArray, List.getElem?_map]
    cases p.layers[id.layer - 1]? with
    | none => rfl
    | some l =>
        simp only [Option.map_some, Option.bind_some, List.getElem?_toArray, List.getElem?_map]

theorem tool_ofProgram (id : SegmentId) :
    (ofProgram p nozzle settings).tool id = (p.segment? id).bind Segment.tool := by
  rw [tool, footprint?_ofProgram]
  cases p.segment? id with
  | none => rfl
  | some s => exact Footprint.tool_ofSegment settings.cellSize s

end Clearance

end ToolBatching
