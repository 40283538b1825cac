import ToolBatching.Program.Draft

/-!
Cutting a program into preamble, layers and end sequence, one line at a time. Layers
open at layer markers with increasing numbers or, when a program has none, at moves
to a Z above every earlier one. A layer opened by its height also takes the tool
change that leads in to it: the lines from the first opener behind the last move of
an axis.
-/

namespace ToolBatching

/-- A tool change that may lead in to the next layer. -/
structure LeadIn where
  /-- How many lines it has so far. -/
  length : Nat
  /-- Machine state in front of it. -/
  entry : Machine

/-- The end sequence of the machine. -/
structure EndSequence where
  /-- Machine state in front of it. -/
  entry : Machine
  commands : Array Command

/-- A program while its lines are being read. -/
structure Layout where
  detection : Detection
  line : Nat := 0
  context : Context := {}
  preamble : Array Command := #[]
  layers : Array Layer := #[]
  current : Option LayerDraft := none
  ending : Option EndSequence := none
  warnings : Array Warning := #[]
  /-- Highest accepted number of a layer marker. -/
  lastNumber : Option Nat := none
  topZ : Option Float := none
  /-- Height from a comment for the layer to come. -/
  pendingZ : Option Float := none
  leadIn : Option LeadIn := none

namespace Layout

def warn (l : Layout) (w : Option Warning) : Layout :=
  match w with
  | some w => { l with warnings := l.warnings.push w }
  | none => l

/-- Close the layer being read. A layer without lines is dropped. -/
def closeLayer (l : Layout) : Layout :=
  match l.current with
  | none => l
  | some draft =>
      if draft.isEmpty then { l with current := none }
      else
        let layer := draft.toLayer (l.layers.size + 1) (l.layers.back?.map Layer.z)
        { l with current := none, layers := l.layers.push layer }

/-- Take the last `count` lines back from the layer being read or the preamble. -/
def takeBack (l : Layout) (object : Option String) (entry : Machine) (count : Nat) :
    Layout × List SegmentDraft :=
  match l.current with
  | some draft =>
      let (kept, taken) := LayerDraft.splitTail object entry count [] draft.segments
      ({ l with current := some { draft with segments := kept } }, taken)
  | none =>
      let kept := l.preamble.size - count
      ({ l with preamble := l.preamble.take kept },
        if count = 0 then [] else [.start object entry (l.preamble.drop kept)])

/-- Open a layer in front of a line, with the tool change that leads in to it. -/
def openLayer (l : Layout) (line : ScannedLine) (openedZ : Option Float) : Layout :=
  let object := line.before.object
  let l := l.warn (object.map fun label => .objectOpenAtLayerBoundary l.line label)
  let entry := (l.leadIn.map LeadIn.entry).getD line.before.machine
  let (l, taken) := l.takeBack object entry ((l.leadIn.map LeadIn.length).getD 0)
  let l := l.closeLayer
  { l with
    leadIn := none
    pendingZ := none
    current := some
      { entry, openedZ
        hintedZ := l.pendingZ
        printedZ := none
        commandedZ := none
        votes := []
        segments := if taken.isEmpty then [.start object entry #[]] else taken.reverse } }

def started (l : Layout) : Bool :=
  l.current.isSome || !l.layers.isEmpty

def openAt (l : Layout) (line : ScannedLine) : Layout :=
  match l.detection with
  | .markers =>
      match line.marker with
      | some (.layer number _) =>
          match l.lastNumber with
          | some previous =>
              if number ≤ previous then
                l.warn (some (.nonIncreasingLayerMarker l.line number previous))
              else { l with lastNumber := some number }.openLayer line none
          | none => { l with lastNumber := some number }.openLayer line none
      | _ => l
  | .zHeight =>
      if line.command.movesZ then
        let z := line.next.machine.z
        if (l.topZ.map fun top => decide (top < z)).getD true then
          { l with topZ := some z }.openLayer line (some z)
        else l
      else l

def nextLeadIn (l : Layout) (line : ScannedLine) : Option LeadIn :=
  match l.detection, l.leadIn with
  | .markers, _ => none
  | .zHeight, some lead =>
      if !line.opens && line.command.movesAxis && !line.command.inToolChange then none
      else some { lead with length := lead.length + 1 }
  | .zHeight, none => if line.opens then some ⟨1, line.before.machine⟩ else none

/-- Note the height in a comment: for the layer being read if it has not printed yet,
otherwise for the layer to come. -/
def noteHeight (l : Layout) (line : ScannedLine) : Layout :=
  match line.marker with
  | some (.zHeight z) =>
      match l.current with
      | some draft =>
          if draft.printedZ.isNone then { l with current := some { draft with hintedZ := some z } }
          else { l with pendingZ := some z }
      | none => { l with pendingZ := some z }
  | _ => l

/-- Add a line to the layer being read or to the preamble. -/
def append (l : Layout) (line : ScannedLine) : Layout :=
  let l := { l with leadIn := l.nextLeadIn line }.noteHeight line
  match l.current with
  | some draft => { l with current := some (draft.append line) }
  | none => { l with preamble := l.preamble.push line.command }

def place (l : Layout) (line : ScannedLine) : Layout :=
  match l.ending with
  | some tail => { l with ending := some { tail with commands := tail.commands.push line.command } }
  | none =>
      if l.started && line.marker == some .endOfPrint then
        { l.closeLayer with ending := some ⟨line.before.machine, #[line.command]⟩ }
      else (l.openAt line).append line

def push (l : Layout) (line : ScannedLine) : Layout :=
  let l := (l.warn line.warning).place line
  { l with context := line.next, line := l.line + 1 }

def read (l : Layout) (text : String) : Layout :=
  l.push (l.context.scan l.line text)

def finish (l : Layout) (lineEnding : LineEnding) : Program :=
  let l := l.closeLayer.warn (l.context.sequence.map .unterminatedToolChange)
  { preamble := l.preamble.toList
    layers := l.layers.toList
    postamble := (l.ending.map fun tail => tail.commands.toList).getD []
    warnings := l.warnings.toList
    lineEnding
    detection := l.detection
    exit := (l.ending.map EndSequence.entry).getD l.context.machine }

end Layout

namespace Program

def ofLines (lines : List String) (lineEnding : LineEnding) : Program :=
  let detection := if Marker.anyLayer lines then .markers else .zHeight
  (lines.foldl Layout.read { detection }).finish lineEnding

def ofText (text : String) : Program :=
  ofLines ((Text.lines text.toList).map String.ofList) (LineEnding.ofText text.toList)

end Program

end ToolBatching
