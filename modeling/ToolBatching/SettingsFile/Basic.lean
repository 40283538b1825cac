import ToolBatching.Settings
import ToolBatching.SettingsFile.Toml

namespace ToolBatching

namespace Toml

def toFloat? : Toml → Option Float
  | float x => some x
  | integer n => some (Float.ofInt n)
  | _ => none

def toCount? (most : Nat) : Toml → Option Nat
  | integer n => if 0 ≤ n && n ≤ most then some n.toNat else none
  | _ => none

def toBool? : Toml → Option Bool
  | boolean b => some b
  | _ => none

def isVoid : Toml → Bool
  | array items => items.isEmpty
  | table _ entries => entries.isEmpty
  | _ => false

/-- A flavor by its name in lower case, as a string or as the only key of a table with
nothing behind it. -/
def toFlavor? : Toml → Option Flavor
  | string s => Flavor.ofName? s
  | table _ [(name, v)] => if isVoid v then Flavor.ofName? name else none
  | _ => none

/-- Largest temperature that can be written. -/
def maxTemperature : Nat := 0xFFFFFFFF

/-- Largest count of layers that can be written. -/
def maxLayers : Nat := 0xFFFFFFFFFFFFFFFF

def toTemperatures? : Toml → Option (List Nat)
  | array items => items.mapM (toCount? maxTemperature)
  | _ => none

/-- The entries of a group of settings. An array stands for the values of the first
names in order. -/
def toGroup? (names : List String) : Toml → Option Entries
  | table _ entries => some entries
  | array items => some (names.zip items)
  | tables elements => some (names.zip (elements.map (table .element)))
  | _ => none

/-- The entry with a name if there is one, otherwise a default. -/
def entry {α : Type} (entries : Entries) (name : String) (read : Toml → Option α)
    (default : α) : Option α :=
  match entries.lookup name with
  | none => some default
  | some v => read v

end Toml

open Toml

def Nozzle.ofToml (v : Toml) : Option Nozzle := do
  let t ← v.toGroup? ["tip_diameter", "cone_angle", "cone_height"]
  let d : Nozzle := {}
  some
    { tipDiameter := ← entry t "tip_diameter" toFloat? d.tipDiameter
      coneAngle := ← entry t "cone_angle" toFloat? d.coneAngle
      coneHeight := ← entry t "cone_height" toFloat? d.coneHeight }

/-- Read parameters of the clearance check. -/
def ClearanceSettings.ofToml (v : Toml) : Option ClearanceSettings := do
  let t ← v.toGroup? ["safety_margin", "cell_size"]
  let d : ClearanceSettings := {}
  some
    { safetyMargin := ← entry t "safety_margin" toFloat? d.safetyMargin
      cellSize := ← entry t "cell_size" toFloat? d.cellSize }

def HopSettings.ofToml (v : Toml) : Option HopSettings := do
  let t ← v.toGroup? ["enabled", "height", "z_speed", "travel_speed"]
  let d : HopSettings := {}
  some
    { enabled := ← entry t "enabled" toBool? d.enabled
      height := ← entry t "height" toFloat? d.height
      zSpeed := ← entry t "z_speed" toFloat? d.zSpeed
      travelSpeed := ← entry t "travel_speed" toFloat? d.travelSpeed }

/-- Read shape and place of the prime towers. -/
def PrimeTower.ofToml (v : Toml) : Option PrimeTower := do
  let t ← v.toGroup?
    ["enabled", "size", "spacing", "wall_thickness", "position_x", "position_y", "layer_height",
      "extrusion_width", "filament_diameter", "print_speed"]
  let d : PrimeTower := {}
  some
    { enabled := ← entry t "enabled" toBool? d.enabled
      size := ← entry t "size" toFloat? d.size
      spacing := ← entry t "spacing" toFloat? d.spacing
      wallThickness := ← entry t "wall_thickness" toFloat? d.wallThickness
      positionX := ← entry t "position_x" toFloat? d.positionX
      positionY := ← entry t "position_y" toFloat? d.positionY
      layerHeight := ← entry t "layer_height" toFloat? d.layerHeight
      extrusionWidth := ← entry t "extrusion_width" toFloat? d.extrusionWidth
      filamentDiameter := ← entry t "filament_diameter" toFloat? d.filamentDiameter
      printSpeed := ← entry t "print_speed" toFloat? d.printSpeed }

def ToolChange.ofToml (v : Toml) : Option ToolChange := do
  let t ← v.toGroup? ["flavor", "default_temperature", "temperatures"]
  let d : ToolChange := {}
  some
    { flavor := ← entry t "flavor" toFlavor? d.flavor
      defaultTemperature :=
        ← entry t "default_temperature" (toCount? maxTemperature) d.defaultTemperature
      temperatures := ← entry t "temperatures" toTemperatures? d.temperatures }

namespace Settings

def ofEntries (t : Entries) : Option Settings := do
  let d : Settings := {}
  some
    { nozzle := ← entry t "nozzle" Nozzle.ofToml d.nozzle
      clearance := ← entry t "collision" ClearanceSettings.ofToml d.clearance
      maxBatchLayers := ← entry t "max_batch_layers" (toCount? maxLayers) d.maxBatchLayers
      hop := ← entry t "zhop" HopSettings.ofToml d.hop
      primeTower := ← entry t "prime_tower" PrimeTower.ofToml d.primeTower
      toolChange := ← entry t "tool_change" ToolChange.ofToml d.toolChange }

/-- Settings from a settings text; `none` for a text that is malformed or has an entry
of the wrong kind. -/
def read? (text : String) : Option Settings :=
  (Toml.read? text).bind ofEntries

end Settings

end ToolBatching
