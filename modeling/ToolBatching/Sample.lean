import ToolBatching.Body.PrimeTower

namespace ToolBatching

/-- One layer of a sample: a tool and a path. The first point is reached by travel,
all others by extruding moves. -/
structure SampleLayer where
  tool : Tool
  path : List (Float × Float)

namespace SampleLayer

/-- The closed outline of a square with its lower left corner at a point. -/
def square (tool : Tool) (x y size : Float) : SampleLayer where
  tool
  path := [(x, y), (x + size, y), (x + size, y + size), (x, y + size), (x, y)]

end SampleLayer

namespace Sample

def layerHeight : Float := 0.2

def lineWidth : Float := 0.4

def filamentDiameter : Float := 1.75

def extrusionPerMm : Float :=
  lineWidth * layerHeight / PrimeTower.filamentArea filamentDiameter

/-- Height of the `k`-th layer, counted from one. -/
def heightOf (k : Nat) : Float :=
  Float.ofNat k * layerHeight

def axis (v : Float) : String :=
  coordinate axisPlaces v

def distance (a b : Float × Float) : Float :=
  let dx := b.1 - a.1
  let dy := b.2 - a.2
  (dx * dx + dy * dy).sqrt

def opening (selects : List String) : List String :=
  ["; generated by layerbatch", "G21", "G90", "M83", "M104 S220"] ++ selects ++ ["G92 E0"]

def closing : List String :=
  ["; MACHINE_END_GCODE_START", "M104 S0", "G91", "G1 Z5 F600", "G90", "M84"]

def edge (x y length : Float) : String :=
  s!"G1 X{axis x} Y{axis y} E{coordinate extrusionPlaces length} F1800"

/-- Extruding moves along a path from a point. -/
def edges (start : Float × Float) : List (Float × Float) → List String
  | [] => []
  | next :: rest => edge next.1 next.2 (distance start next * extrusionPerMm) :: edges next rest

/-- Travel to the start of a path and print it. -/
def pathLines : List (Float × Float) → List String
  | [] => []
  | start :: rest => s!"G1 X{axis start.1} Y{axis start.2} F9000" :: edges start rest

/-- Lines of the `k`-th of `total` layers. -/
def layerLines (total k : Nat) (l : SampleLayer) : List String :=
  [s!"; layer num/total_layer_count: {k}/{total}", s!"T{l.tool}", s!"G1 Z{axis (heightOf k)} F600"]
    ++ pathLines l.path

/-- A program that prints layers, each with the tool it selects. -/
def program (layers : List SampleLayer) : String :=
  let total := layers.length
  let body := layers.zipIdx.flatMap fun (l, i) => layerLines total (i + 1) l
  Text.unlines .lf (opening [] ++ body ++ closing)

/-- The layer with a number of the alternating sample: a wide square with tool zero on
odd layers and a narrow one above its middle with tool one on even layers. -/
def alternatingLayer (k : Nat) : SampleLayer :=
  if k % 2 = 1 then .square 0 10.0 10.0 20.0 else .square 1 15.0 15.0 10.0

def alternatingTools (layers : Nat) : String :=
  program ((List.range' 1 layers).map alternatingLayer)

def changeLines (tool : Tool) : List String :=
  [s!"M620 S{tool}A", s!"T{tool}", "G1 E2 F300", s!"M621 S{tool}A"]

/-- Lines of the object that a tool prints on every layer. -/
def objectLines (tool : Tool) : List String :=
  let x : Float := if tool = 0 then 20.0 else 60.0
  let side := 10.0 * extrusionPerMm
  let corners : List (Float × Float) := [(10.0, 0.0), (10.0, 10.0), (0.0, 10.0), (0.0, 0.0)]
  s!"; start printing object, unique label id: {100 + tool}"
    :: s!"G1 X{axis x} Y20 F9000"
    :: corners.map (fun (dx, dy) => edge (x + dx) (20.0 + dy) side)
    ++ [s!"; stop printing object, unique label id: {100 + tool}"]

/-- Lines of the `k`-th of `total` layers with two objects. The tool that is loaded
prints first, so tools change once a layer. -/
def twoObjectLayer (total k : Nat) : List String :=
  let z := axis (heightOf k)
  let (loaded, other) := if k % 2 = 1 then (0, 1) else (1, 0)
  [s!"; layer num/total_layer_count: {k}/{total}", s!"; Z_HEIGHT: {z}", s!"G1 Z{z} F600"]
    ++ objectLines loaded ++ changeLines other ++ objectLines other

/-- Two objects, each printed with its own tool on every layer. -/
def twoObjects (layers : Nat) : String :=
  Text.unlines .lf
    (opening ["T0"] ++ (List.range' 1 layers).flatMap (twoObjectLayer layers) ++ closing)

end Sample

end ToolBatching
