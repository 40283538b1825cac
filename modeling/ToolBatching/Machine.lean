import ToolBatching.Command.Basic

/-!
The modal state of the printer. `step` applies one command and `extruded` says how
much filament the command pushes out in a state; commands that are not understood
change nothing.
-/

namespace ToolBatching

/-- Whether coordinates are taken as they are or as offsets. -/
inductive Mode where
  | absolute
  | relative
  deriving DecidableEq

/-- Position and modes of the printer between two commands. -/
structure Machine where
  x : Float := 0
  y : Float := 0
  z : Float := 0
  /-- Extruder position in mm of filament. -/
  e : Float := 0
  /-- Speed in mm per minute, once one has been set. -/
  feedrate : Option Float := none
  /-- How X, Y and Z are read. -/
  positioning : Mode := .absolute
  /-- How E is read. -/
  extrusion : Mode := .absolute
  /-- The active tool, once one has been selected. -/
  tool : Option Tool := none
  deriving DecidableEq

namespace Machine

/-- Where a coordinate word leads from a position. -/
def moved (mode : Mode) (position : Float) : Option Float → Float
  | none => position
  | some v =>
      match mode with
      | .absolute => v
      | .relative => position + v

def move (m : Machine) (c : Command) : Machine :=
  { m with
    x := moved m.positioning m.x c.x
    y := moved m.positioning m.y c.y
    z := moved m.positioning m.z c.z
    e := moved m.extrusion m.e c.e
    feedrate := c.f.or m.feedrate }

/-- Redefine the position; a command without any coordinate zeroes all four. -/
def setPosition (m : Machine) (c : Command) : Machine :=
  if c.x.isNone && c.y.isNone && c.z.isNone && c.e.isNone then
    { m with x := 0, y := 0, z := 0, e := 0 }
  else
    { m with x := c.x.getD m.x, y := c.y.getD m.y, z := c.z.getD m.z, e := c.e.getD m.e }

/-- Home the axes that the command names behind its mnemonic, or all three. The
values of the words carry no meaning. -/
def home (m : Machine) (c : Command) : Machine :=
  let axes := (c.words.tail.map Word.letter).filter fun a => a == 'X' || a == 'Y' || a == 'Z'
  let homed (a : Char) (position : Float) : Float :=
    if axes.isEmpty || axes.contains a then 0 else position
  { m with x := homed 'X' m.x, y := homed 'Y' m.y, z := homed 'Z' m.z }

/-- The state after a command. -/
def step (m : Machine) (c : Command) : Machine :=
  match c.tool with
  | some t => { m with tool := some t }
  | none =>
      match c.mnemonic with
      | "G90" => { m with positioning := .absolute }
      | "G91" => { m with positioning := .relative }
      | "M82" => { m with extrusion := .absolute }
      | "M83" => { m with extrusion := .relative }
      | "G92" => m.setPosition c
      | "G28" => m.home c
      | _ => if c.isMotion then m.move c else m

/-- Filament pushed out by a command. Only motions extrude. -/
def extruded (m : Machine) (c : Command) : Float :=
  if c.tool.isNone && c.isMotion then
    match c.e, m.extrusion with
    | none, _ => 0
    | some e, .relative => e
    | some e, .absolute => e - m.e
  else 0

/-- Whether a command deposits material: it extrudes outside tool-change sequences. -/
def prints (m : Machine) (c : Command) : Bool :=
  0 < m.extruded c && c.isMotion && !c.inToolChange

def run (m : Machine) (commands : List Command) : Machine :=
  commands.foldl step m

end Machine

/-- How often a list of commands selects a tool other than the active one. -/
def countToolChanges (initial : Option Tool) (commands : List Command) : Nat :=
  go initial (commands.filterMap Command.tool)
where
  /-- Count along the selected tools. -/
  go : Option Tool → List Tool → Nat
    | _, [] => 0
    | active, t :: rest => (if active = some t then 0 else 1) + go (some t) rest

end ToolBatching
