import ToolBatching.Command.Move
import ToolBatching.Fault
import ToolBatching.Number.Rounding

namespace ToolBatching

/-- Shape and place of the prime towers, in mm and mm per second. -/
structure PrimeTower where
  /-- Whether towers are printed at all. -/
  enabled : Bool := true
  size : Float := 10.0
  spacing : Float := 5.0
  wallThickness : Float := 0.8
  /-- Corner of the tower of tool zero. -/
  positionX : Float := 200.0
  positionY : Float := 200.0
  /-- Height of a layer that has none below it. -/
  layerHeight : Float := 0.2
  extrusionWidth : Float := 0.4
  filamentDiameter : Float := 1.75
  printSpeed : Float := 40.0

namespace PrimeTower

def requireLength (name : String) (length : Float) : Except SettingsFault Unit :=
  require (0 < length && length.isFinite) (.towerLength name)

def validate (t : PrimeTower) : Except SettingsFault Unit := do
  requireLength "size" t.size
  requireLength "wall_thickness" t.wallThickness
  requireLength "layer_height" t.layerHeight
  requireLength "extrusion_width" t.extrusionWidth
  requireLength "filament_diameter" t.filamentDiameter
  requireLength "print_speed" t.printSpeed
  require (0 ≤ t.spacing) .towerSpacing

def position (t : PrimeTower) (tool : Tool) : Float × Float :=
  (t.positionX + Float.ofNat tool * (t.size + t.spacing), t.positionY)

/-- Number of loops of the wall, at least one. -/
def loops (t : PrimeTower) : Nat :=
  let lines := t.wallThickness / t.extrusionWidth
  max 1 (Number.clamped 0 Number.maxUInt64 Number.nearest lines).toNat

def filamentArea (diameter : Float) : Float :=
  let radius := diameter / 2.0
  Number.pi * (radius * radius)

/-- Filament per mm of line at a layer height. -/
def extrusionPerMm (t : PrimeTower) (layerHeight : Float) : Float :=
  t.extrusionWidth * layerHeight / filamentArea t.filamentDiameter

/-- One loop: a travel to its corner and four extruding sides. -/
def loop (t : PrimeTower) (perMm x y side : Float) : List Command :=
  let edge (x y : Float) : Command :=
    Move.build
      { x := some x, y := some y, e := some (side * perMm), f := some (t.printSpeed * 60.0) }
  [Move.build { x := some x, y := some y },
    edge (x + side) y, edge (x + side) (y + side), edge x (y + side), edge x y]

/-- Up to `left` loops from the `i`-th on, each inside the one before, until no room is
left. -/
def loopsFrom (t : PrimeTower) (perMm x y : Float) : (left i : Nat) → List Command
  | 0, _ => []
  | left + 1, i =>
      let inset := Float.ofNat i * t.extrusionWidth
      let side := t.size - 2.0 * inset
      if side ≤ 0 then []
      else t.loop perMm (x + inset) (y + inset) side ++ t.loopsFrom perMm x y left (i + 1)

/-- Moves of one tower layer, with relative extrusion. The nozzle stands at the corner
of the tower already. -/
def layerMoves (t : PrimeTower) (tool : Tool) (layerHeight : Float) : List Command :=
  let (x, y) := t.position tool
  t.loopsFrom (t.extrusionPerMm layerHeight) x y t.loops 0

end PrimeTower

/-- The last layer that each tool's tower has reached. -/
structure TowerProgress where
  reached : List (Tool × Nat) := []

namespace TowerProgress

/-- The last layer that a tool's tower has reached, zero at first. -/
def printed (p : TowerProgress) (tool : Tool) : Nat :=
  (p.reached.lookup tool).getD 0

/-- Let a tool's tower reach a layer, if it is not there yet. -/
def catchUp (p : TowerProgress) (tool : Tool) (layer : Nat) : TowerProgress :=
  if p.printed tool < layer then
    ⟨(tool, layer) :: p.reached.filter fun entry => entry.1 != tool⟩
  else p

/-- How many layers a tool's tower lacks up to a layer. -/
def lacking (p : TowerProgress) (tool : Tool) (layer : Nat) : Nat :=
  layer - p.printed tool

/-- Layers that a tool's tower lacks up to a layer, ascending. -/
def missing (p : TowerProgress) (tool : Tool) (layer : Nat) : List Nat :=
  List.range' (p.printed tool + 1) (p.lacking tool layer)

end TowerProgress

end ToolBatching
