import ToolBatching.Ascending
import ToolBatching.Box
import ToolBatching.Machine
import ToolBatching.Program.Warning
import ToolBatching.Text.Line

namespace ToolBatching

/-- Name of a segment: the layer, counted from one, and the place in the layer,
counted from zero. -/
structure SegmentId where
  layer : Nat
  ordinal : Nat
  deriving DecidableEq

namespace SegmentId

/-- Program order. -/
instance : LT SegmentId where
  lt a b := a.layer < b.layer ∨ (a.layer = b.layer ∧ a.ordinal < b.ordinal)

instance (a b : SegmentId) : Decidable (a < b) :=
  inferInstanceAs (Decidable (_ ∨ _))

def text (id : SegmentId) : String :=
  s!"L{id.layer}#{id.ordinal}"

end SegmentId

/-- A run of one layer's commands with one tool and one object. -/
structure Segment where
  id : SegmentId
  /-- Label of the object being printed. -/
  object : Option String
  tool : Option Tool
  /-- Place of the first command in the layer. -/
  start : Nat
  commands : List Command
  /-- Machine state in front of the first command. -/
  entry : Machine
  /-- Height of the layer. -/
  z : Float
  /-- How many commands deposit material outside tool-change sequences. -/
  printMoves : Nat
  deriving DecidableEq

/-- Place behind the last command in the layer. -/
def Segment.stop (s : Segment) : Nat :=
  s.start + s.commands.length

/-- One physical layer. -/
structure Layer where
  /-- Place among the layers, counted from one. -/
  index : Nat
  z : Float
  /-- The tool that prints most of the layer. -/
  tool : Option Tool
  /-- Machine state in front of the first command. -/
  entry : Machine
  segments : List Segment

namespace Layer

def commands (l : Layer) : List Command :=
  l.segments.flatMap Segment.commands

/-- The box around the points of all commands with both an X and a Y word. -/
def bounds (l : Layer) : Option Box :=
  l.commands.foldl (fun box c =>
    match c.x, c.y with
    | some x, some y => some (Box.insert? box x y)
    | _, _ => box) none

end Layer

/-- How layers were told apart. -/
inductive Detection where
  /-- By the layer markers of the slicer. -/
  | markers
  /-- By moves to a Z above every earlier one. -/
  | zHeight
  deriving DecidableEq

/-- A program cut into layers. -/
structure Program where
  /-- Lines in front of the first layer. -/
  preamble : List Command
  layers : List Layer
  /-- The end sequence of the machine. -/
  postamble : List Command
  warnings : List Warning
  lineEnding : LineEnding
  detection : Detection
  /-- Machine state behind the last layer. -/
  exit : Machine

namespace Program

def layer? (p : Program) (index : Nat) : Option Layer :=
  if index = 0 then none else p.layers[index - 1]?

def segment? (p : Program) (id : SegmentId) : Option Segment :=
  (p.layer? id.layer).bind fun l => l.segments[id.ordinal]?

def segments (p : Program) : List Segment :=
  p.layers.flatMap Layer.segments

def segmentIds (p : Program) : List SegmentId :=
  p.segments.map Segment.id

def bodyCommands (p : Program) : List Command :=
  p.layers.flatMap Layer.commands

def commands (p : Program) : List Command :=
  p.preamble ++ p.bodyCommands ++ p.postamble

def preambleState (p : Program) : Machine :=
  match p.layers with
  | l :: _ => l.entry
  | [] => p.exit

/-- Tools of the segments, ascending and without repeats. -/
def tools (p : Program) : List Tool :=
  ascending (p.segments.filterMap Segment.tool)

/-- How often the layers change the active tool. -/
def toolChangeCount (p : Program) : Nat :=
  countToolChanges p.preambleState.tool p.bodyCommands

def text (p : Program) : String :=
  Command.unlines p.lineEnding p.commands

end Program

end ToolBatching
