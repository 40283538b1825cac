import ToolBatching.Number.FixedPoint
import ToolBatching.Program.Basic
import ToolBatching.Report.Json

namespace ToolBatching

structure Inspection where
  detection : Detection
  layers : Nat
  segments : Nat
  /-- Tools of the segments, ascending. -/
  tools : List Tool
  /-- Labels of the objects, ascending. -/
  objects : List String
  toolChanges : Nat
  /-- The lowest and the highest layer. -/
  heights : Option (Float × Float)
  extent : Option Box
  warnings : List Warning

/-- The smallest and the largest of some floats. -/
def floatRange : List Float → Option (Float × Float)
  | [] => none
  | x :: rest => some (rest.foldl Number.lesser x, rest.foldl Number.greater x)

def Box.unions : List Box → Option Box
  | [] => none
  | b :: rest => some (rest.foldl Box.union b)

def Program.inspect (p : Program) : Inspection where
  detection := p.detection
  layers := p.layers.length
  segments := p.segments.length
  tools := p.tools
  objects := ascending (p.segments.filterMap Segment.object)
  toolChanges := p.toolChangeCount
  heights := floatRange (p.layers.map Layer.z)
  extent := Box.unions (p.layers.filterMap Layer.bounds)
  warnings := p.warnings

/-- How layers were told apart, in reports. -/
def Detection.name : Detection → String
  | .markers => "Markers"
  | .zHeight => "ZHeight"

namespace Inspection

def optional {α : Type} (toJson : α → Json) : Option α → Json
  | some v => toJson v
  | none => .null

def point (x y : Float) : Json :=
  .array [.float x, .float y]

def json (i : Inspection) : Json :=
  .object
    [("detection", .string i.detection.name), ("layers", .count i.layers),
      ("segments", .count i.segments), ("tools", .array (i.tools.map Json.count)),
      ("objects", .array (i.objects.map Json.string)), ("tool_changes", .count i.toolChanges),
      ("min_z", optional (fun range => .float range.1) i.heights),
      ("max_z", optional (fun range => .float range.2) i.heights),
      ("min_xy", optional (fun box => point box.minX box.minY) i.extent),
      ("max_xy", optional (fun box => point box.maxX box.maxY) i.extent),
      ("warnings", .array (i.warnings.map fun w => .string w.message))]

def millimetres (x : Float) : String :=
  Number.fixedPoint 3 x

/-- The structure as lines for the reader, under the name of the file. -/
def lines (file : String) (i : Inspection) : List String :=
  [s!"File: {file}", s!"Layer detection: {i.detection.name}", s!"Layers: {i.layers}"]
    ++ (i.heights.toList.map fun (low, high) =>
      s!"Z range: {millimetres low} - {millimetres high} mm")
    ++ (i.extent.toList.map fun box =>
      s!"XY extent: ({millimetres box.minX}, {millimetres box.minY}) - "
        ++ s!"({millimetres box.maxX}, {millimetres box.maxY}) mm")
    ++ [s!"Segments: {i.segments}", "Tools: [" ++ ", ".intercalate (i.tools.map toString) ++ "]"]
    ++ (if i.objects.isEmpty then [] else ["Objects: " ++ ", ".intercalate i.objects])
    ++ [s!"Tool changes: {i.toolChanges}"]
    ++ i.warnings.map fun w => "warning: " ++ w.message

end Inspection

end ToolBatching
