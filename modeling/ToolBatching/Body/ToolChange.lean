import ToolBatching.Fault
import ToolBatching.Program.Scan

/-!
Tool-change blocks. A flavor is a fixed template; rendering fills in its fields and
reads the lines the way a program is read, so the tags of the block are those it has
when it is read back.
-/

namespace ToolBatching

/-- Dialect of tool changes. -/
inductive Flavor where
  /-- A filament switcher's sequence with purge and wipe. -/
  | bambu
  /-- A bare tool select and a wait for the temperature. -/
  | generic

structure ChangeValues where
  /-- The tool that is active before the change. -/
  source : Option Tool
  tool : Tool
  /-- Nozzle temperature of the new tool in °C. -/
  temperature : Nat
  /-- Highest Z that has been printed. -/
  ceiling : Float

inductive TemplatePiece where
  | text (s : String)
  | tool
  /-- The old tool. -/
  | source
  | temperature
  /-- The height of the first lift. -/
  | lift
  /-- The height while purging. -/
  | clearance
  deriving DecidableEq

namespace TemplatePiece

/-- Distance of the first lift above the ceiling, in mm. -/
def liftHeight : Float := 0.4

/-- Distance above the ceiling while purging, in mm. -/
def purgeHeight : Float := 3.0

def render (v : ChangeValues) : TemplatePiece → String
  | text s => s
  | tool => toString v.tool
  | source =>
      match v.source with
      | some t => "T" ++ toString t
      | none => "none"
  | temperature => toString v.temperature
  | lift => coordinate axisPlaces (v.ceiling + liftHeight)
  | clearance => coordinate axisPlaces (v.ceiling + purgeHeight)

/-- A field as it stands in the text of a template. -/
def field (name : String) : String :=
  "\x7b" ++ name ++ "\x7d"

def symbol : TemplatePiece → String
  | text s => s
  | tool => field "tool"
  | source => field "from"
  | temperature => field "temp"
  | lift => field "lift_z"
  | clearance => field "clear_z"

end TemplatePiece

namespace Flavor

open TemplatePiece

def name : Flavor → String
  | bambu => "bambu"
  | generic => "generic"

def ofName? (s : String) : Option Flavor :=
  [bambu, generic].find? fun f => f.name == s

/-- The flavor with a name in any case, or what is wrong with the name. -/
def read (s : String) : Except String Flavor :=
  let lower := s.map Char.toLower
  match ofName? lower with
  | some f => .ok f
  | none => .error ("unknown tool-change flavor '" ++ lower ++ "'")

/-- Lines of the sequence up to the tool select. -/
def bambuApproach : List (List TemplatePiece) :=
  [[text "M620 S", tool, text "A"],
    [text "; tool change ", source, text " -> T", tool],
    [text "M204 S9000"],
    [text "G17"],
    [text "G2 Z", lift, text " I0.86 J0.86 P1 F10000"],
    [text "G1 Z", clearance, text " F1200"],
    [text "G1 X70 F21000"],
    [text "G1 Y245"],
    [text "G1 Y265 F3000"],
    [text "M400"],
    [text "M106 P1 S0"],
    [text "M106 P2 S0"],
    [text "M104 S", temperature],
    [text "M620.11 S0"],
    [text "M400"],
    [text "G1 X90"],
    [text "G1 Y255 F4000"],
    [text "G1 X100 F5000"],
    [text "G1 X120 F15000"],
    [text "G1 X20 Y50 F21000"],
    [text "G1 Y-3"],
    [text "M620.1 E F299 T240"],
    [text "T", tool],
    [text "M620.1 E F299 T240"],
    [text "M620.11 S0"]]

/-- Lines that purge the old material and wipe the nozzle. -/
def bambuPurge : List (List TemplatePiece) :=
  [[text "G92 E0"],
    [text "; FLUSH_START"],
    [text "M400"],
    [text "M109 S", temperature],
    [text "G1 E2 F299"],
    [text "; FLUSH_END"],
    [text "M400"],
    [text "G92 E0"],
    [text "G1 E-2 F1800"],
    [text "M106 P1 S255"],
    [text "M400 S3"],
    [text "G1 X70 F5000"],
    [text "G1 X90 F3000"],
    [text "G1 Y255 F4000"],
    [text "G1 X105 F5000"],
    [text "G1 Y265"],
    [text "G1 X70 F10000"],
    [text "G1 X100 F5000"],
    [text "G1 X70 F10000"],
    [text "G1 X100 F5000"],
    [text "G1 X70 F10000"],
    [text "G1 X80 F15000"],
    [text "G1 X60"],
    [text "G1 X80"],
    [text "G1 X60"],
    [text "G1 X80"],
    [text "G1 X100 F5000"],
    [text "G1 X165 F15000"],
    [text "G1 Y256"],
    [text "M400"],
    [text "G1 Z", clearance, text " F3000"],
    [text "M204 S10000"],
    [text "M621 S", tool, text "A"],
    [text "M106 S0"],
    [text "M104 S", temperature],
    [text "M900 K0.015 L1000 M10"]]

def template : Flavor → List (List TemplatePiece)
  | bambu => bambuApproach ++ bambuPurge
  | generic =>
      [[text "; tool change ", source, text " -> T", tool],
        [text "T", tool],
        [text "M109 S", temperature, text " ; wait for nozzle temp"]]

/-- The text of a template with named fields. -/
def templateText (f : Flavor) : String :=
  Text.unlines .lf (f.template.map fun line => String.join (line.map symbol))

/-- Lines of a template with values filled in. -/
def lines (f : Flavor) (v : ChangeValues) : List String :=
  f.template.map fun line => String.join (line.map (render v))

def render (f : Flavor) (v : ChangeValues) : List Command :=
  (scanLines {} 0 (f.lines v)).map fun line => { line.command with line := none }

end Flavor

/-- How tool changes are written. -/
structure ToolChange where
  flavor : Flavor := .bambu
  /-- Temperature in °C of tools without one of their own. -/
  defaultTemperature : Nat := 220
  /-- Temperatures in °C by tool number. -/
  temperatures : List Nat := []

namespace ToolChange

def validate (t : ToolChange) : Except SettingsFault Unit :=
  match (t.defaultTemperature :: t.temperatures).find? fun c => c == 0 || decide (500 < c) with
  | some celsius => .error (.temperature celsius)
  | none => .ok ⟨⟩

def temperature (t : ToolChange) (tool : Tool) : Nat :=
  (t.temperatures[tool]?).getD t.defaultTemperature

def block (t : ToolChange) (source : Option Tool) (tool : Tool) (ceiling : Float) : List Command :=
  t.flavor.render { source, tool, ceiling, temperature := t.temperature tool }

end ToolChange

end ToolBatching
