import ToolBatching.Machine
import ToolBatching.Marker
import ToolBatching.Program.Warning

namespace ToolBatching

/-- Where a line splits the segment it stands in. -/
inductive Boundary where
  | none
  /-- A segment begins with the line. -/
  | before
  /-- A segment begins behind the line. -/
  | after
  deriving DecidableEq

/-- What the lines read so far leave open. -/
structure Context where
  machine : Machine := {}
  /-- Line of the open tool-change sequence. -/
  sequence : Option Nat := none
  /-- Label of the open object. -/
  object : Option String := none

/-- A line read in its context. -/
structure ScannedLine where
  command : Command
  marker : Option Marker
  before : Context
  next : Context
  /-- Filament that the line pushes out. -/
  extrusion : Float
  /-- Whether the line opens a tool-change sequence. -/
  opens : Bool
  boundary : Boundary
  warning : Option Warning

namespace Context

def opensSequence (ctx : Context) (marker : Option Marker) (c : Command) : Bool :=
  match ctx.sequence, marker with
  | none, some (.toolChangeOpen _) => true
  | none, _ => c.tool.isSome
  | some _, _ => false

/-- Whether a line belongs to a tool-change sequence here. An opener always does. -/
def isMember (ctx : Context) (marker : Option Marker) (c : Command) : Bool :=
  match marker with
  | some (.toolChangeOpen _) => true
  | _ => ctx.sequence.isSome || c.tool.isSome

def nextSequence (ctx : Context) (marker : Option Marker) (line : Nat) : Option Nat :=
  match marker with
  | some (.toolChangeOpen _) => ctx.sequence.or (some line)
  | some .toolChangeClose => none
  | _ => ctx.sequence

def nextObject (ctx : Context) (marker : Option Marker) : Option String :=
  match marker with
  | some (.objectStart label) => some label
  | some (.objectStop _) => none
  | _ => ctx.object

def boundaryOf (ctx : Context) (marker : Option Marker) (opens : Bool) : Boundary :=
  match marker, ctx.object with
  | some (.objectStart _), _ => .before
  | some (.objectStop _), some _ => .after
  | _, _ => if opens then .before else .none

def warningOf (ctx : Context) (marker : Option Marker) (line : Nat) : Option Warning :=
  match marker, ctx.sequence, ctx.object with
  | some (.toolChangeOpen _), some opened, _ => some (.nestedToolChangeOpen line opened)
  | some .toolChangeClose, none, _ => some (.strayToolChangeClose line)
  | some (.objectStop label), _, none => some (.strayObjectStop line label)
  | _, _, _ => none

def advance (ctx : Context) (line : Nat) (c : Command) : Context :=
  let marker := Marker.ofCommand c
  { machine := ctx.machine.step c
    sequence := ctx.nextSequence marker line
    object := ctx.nextObject marker }

def scan (ctx : Context) (line : Nat) (text : String) : ScannedLine :=
  let c := Command.parse line text
  let marker := Marker.ofCommand c
  let opens := ctx.opensSequence marker c
  { command := { c with inToolChange := ctx.isMember marker c }
    marker, opens
    before := ctx
    next := ctx.advance line c
    extrusion := ctx.machine.extruded c
    boundary := ctx.boundaryOf marker opens
    warning := ctx.warningOf marker line }

end Context

/-- Whether the line deposits material outside tool-change sequences. -/
def ScannedLine.isPrintMove (s : ScannedLine) : Bool :=
  0 < s.extrusion && s.command.isMotion && !s.command.inToolChange

/-- Lines of a program, each read in the context that the lines in front of it leave. -/
def scanLines (ctx : Context) (start : Nat) : List String → List ScannedLine
  | [] => []
  | text :: rest =>
      let line := ctx.scan start text
      line :: scanLines line.next (start + 1) rest

end ToolBatching
