import ToolBatching.Program.Basic
import ToolBatching.Program.Scan

/-!
A layer while its lines are being read. `LayerDraft.append` adds one scanned line,
`LayerDraft.splitTail` takes the last lines back out, and `LayerDraft.toLayer` closes
the layer.
-/

namespace ToolBatching

/-- A segment while its lines are being read. -/
structure SegmentDraft where
  object : Option String
  tool : Option Tool
  /-- Whether a line other than a comment or a tool change has fixed the tool. -/
  settled : Bool
  entry : Machine
  printMoves : Nat
  commands : Array Command

namespace SegmentDraft

/-- A segment that starts in a machine state, with the commands known so far. -/
def start (object : Option String) (entry : Machine) (commands : Array Command) : SegmentDraft :=
  { object, entry, commands, tool := entry.tool, settled := false, printMoves := 0 }

/-- Add a line. The tool follows the machine until a line settles it. -/
def append (s : SegmentDraft) (line : ScannedLine) : SegmentDraft :=
  { s with
    tool := if s.settled then s.tool else line.next.machine.tool
    settled := s.settled || (!line.command.inToolChange && !line.command.isCommentOrBlank)
    printMoves := if line.isPrintMove then s.printMoves + 1 else s.printMoves
    commands := s.commands.push line.command }

end SegmentDraft

/-- A layer while its lines are being read. -/
structure LayerDraft where
  entry : Machine
  /-- Height of the move that opened the layer, if one did. -/
  openedZ : Option Float
  /-- Height from a comment in front of the first print move. -/
  hintedZ : Option Float
  /-- Height of the first print move. -/
  printedZ : Option Float
  /-- Height of the first move in Z. -/
  commandedZ : Option Float
  /-- Print moves per tool, in the order of their first ones. -/
  votes : List (Tool × Nat)
  /-- Segments, the newest first. -/
  segments : List SegmentDraft

namespace LayerDraft

/-- Begin a segment. A segment that has no lines yet gives way to it. -/
def startSegment (d : LayerDraft) (object : Option String) (entry : Machine) : LayerDraft :=
  let fresh := SegmentDraft.start object entry #[]
  { d with
    segments := match d.segments with
      | [] => [fresh]
      | last :: rest => if last.commands.isEmpty then fresh :: rest else fresh :: last :: rest }

def addVote (t : Tool) : List (Tool × Nat) → List (Tool × Nat)
  | [] => [(t, 1)]
  | (u, n) :: rest => if u = t then (u, n + 1) :: rest else (u, n) :: addVote t rest

/-- Note the heights and the tool of a line. -/
def observe (d : LayerDraft) (line : ScannedLine) : LayerDraft :=
  let after := line.next.machine
  { d with
    commandedZ := if line.command.movesZ then d.commandedZ.or (some after.z) else d.commandedZ
    printedZ := if line.isPrintMove then d.printedZ.or (some after.z) else d.printedZ
    votes := match after.tool with
      | some t => if line.isPrintMove then addVote t d.votes else d.votes
      | none => d.votes }

def appendToSegment (d : LayerDraft) (line : ScannedLine) : LayerDraft :=
  { d with
    segments := match d.segments with
      | [] => []
      | last :: rest => last.append line :: rest }

/-- Add a line, splitting segments in front of or behind it. -/
def append (d : LayerDraft) (line : ScannedLine) : LayerDraft :=
  let d :=
    if line.boundary = .before then d.startSegment line.next.object line.before.machine else d
  let d := (d.observe line).appendToSegment line
  if line.boundary = .after then d.startSegment line.next.object line.next.machine else d

/-- Take the last `count` lines out of segments, given the newest first. The result
is what stays and, oldest first, what was taken; the taken part of a segment that is
cut in two starts over in the given state. -/
def splitTail (object : Option String) (entry : Machine) (count : Nat)
    (taken : List SegmentDraft) : List SegmentDraft → List SegmentDraft × List SegmentDraft
  | [] => ([], taken)
  | last :: rest =>
      if count = 0 then (last :: rest, taken)
      else
        let size := last.commands.size
        if size ≤ count then splitTail object entry (count - size) (last :: taken) rest
        else
          ({ last with commands := last.commands.take (size - count) } :: rest,
            .start object entry (last.commands.drop (size - count)) :: taken)

def isEmpty (d : LayerDraft) : Bool :=
  d.segments.all fun s => s.commands.isEmpty

/-- Give closed segments their names and places. -/
def number (layer : Nat) (z : Float) (ordinal start : Nat) : List SegmentDraft → List Segment
  | [] => []
  | s :: rest =>
      { id := ⟨layer, ordinal⟩, object := s.object, tool := s.tool, start, z
        commands := s.commands.toList, entry := s.entry, printMoves := s.printMoves }
      :: number layer z (ordinal + 1) (start + s.commands.size) rest

/-- The tool with the most votes, the first of several. -/
def winner : List (Tool × Nat) → Option (Tool × Nat)
  | [] => none
  | vote :: rest =>
      match winner rest with
      | some best => if vote.2 < best.2 then some best else some vote
      | none => some vote

/-- Height of the layer: of the opening move, else of the comment, else of the first
print move, else of the first move in Z, else of the layer below, else of the entry. -/
def height (d : LayerDraft) (below : Option Float) : Float :=
  ((((d.openedZ.or d.hintedZ).or d.printedZ).or d.commandedZ).or below).getD d.entry.z

/-- Segments that have lines, the oldest first. -/
def closedSegments (d : LayerDraft) : List SegmentDraft :=
  match d.segments with
  | last :: rest => if last.commands.isEmpty then rest.reverse else (last :: rest).reverse
  | [] => []

/-- Close the layer, given its index and the height of the layer below. -/
def toLayer (d : LayerDraft) (index : Nat) (below : Option Float) : Layer :=
  let z := d.height below
  let segments := number index z 0 0 d.closedSegments
  { index, z, segments
    entry := d.entry
    tool := ((winner d.votes).map Prod.fst).or
      ((segments.getLast?.bind Segment.tool).or d.entry.tool) }

end LayerDraft

end ToolBatching
