import ToolBatching.Command.Move
import ToolBatching.Text.Search

/-!
Structural markers on lines of a program. Openers and closers of tool-change
sequences stand in the code of a line and are read as they are; all other markers
stand in its comment and are read without regard to case.
-/

namespace ToolBatching

/-- A structural marker carried by a line. -/
inductive Marker where
  /-- A layer begins; number and total as the slicer counts them. -/
  | layer (number total : Nat)
  /-- The object with this label begins. -/
  | objectStart (label : String)
  /-- The object with this label ends. -/
  | objectStop (label : String)
  /-- Height of a layer in mm. -/
  | zHeight (z : Float)
  /-- A tool-change sequence to the given slot opens. -/
  | toolChangeOpen (slot : Nat)
  /-- A tool-change sequence closes. -/
  | toolChangeClose
  /-- The end sequence of the machine starts. -/
  | endOfPrint
  deriving DecidableEq

namespace Marker

open Text

/-- A count below `2 ^ 32` in ASCII digits. -/
def readCount (digits : List Char) : Option Nat :=
  let n := Number.ofDigits digits
  if digits.all Char.isDigit && n < 0x100000000 then some n else none

/-- The digits of `keyword`, digits, `A` at the front of a code text. -/
def sequenceDigits (keyword : String) (code : List Char) : Option (List Char) := do
  let rest ← dropLiteral keyword.toList code
  let (digits, rest) ← takeRun isDecimalDigit rest
  match rest with
  | 'A' :: _ => some digits
  | _ => none

/-- Number and total behind the layer literal at the front of a text, as digits. -/
def layerDigits (text : List Char) : Option (List Char × List Char) := do
  let rest ← dropFolded "layer num/total_layer_count:".toList text
  let (number, rest) ← takeRun isDecimalDigit (skipBlanks rest)
  match skipBlanks rest with
  | '/' :: rest => do
      let (total, _) ← takeRun isDecimalDigit (skipBlanks rest)
      some (number, total)
  | _ => none

/-- The label behind an object literal at the front of a text. -/
def objectLabel (verb : String) (text : List Char) : Option (List Char) := do
  let rest ← dropFolded (verb ++ " printing object, unique label id:").toList text
  let (label, _) ← takeRun (fun c => !isBlank c) (skipBlanks rest)
  some label

/-- The longest decimal at the front of a text: an optional sign, digits, and a point
only if digits follow it. -/
def leadingDecimal (text : List Char) : Option (List Char) :=
  let (sign, rest) := match text with
    | '-' :: rest => (['-'], rest)
    | '+' :: rest => (['+'], rest)
    | rest => ([], rest)
  let whole := rest.takeWhile Char.isDigit
  let part := match rest.dropWhile Char.isDigit with
    | '.' :: part => part.takeWhile Char.isDigit
    | _ => []
  if !part.isEmpty then some (sign ++ whole ++ '.' :: part)
  else if !whole.isEmpty then some (sign ++ whole)
  else none

/-- The decimal behind the height literal at the start of a comment. -/
def heightDigits (comment : List Char) : Option (List Char) := do
  let rest ← dropFolded "z_height:".toList comment
  leadingDecimal (skipBlanks rest)

/-- Texts whose presence in a comment, in any case, ends the print. -/
def endTexts : List String :=
  ["MACHINE_END_GCODE_START", "EXECUTABLE_BLOCK_END"]

/-- Whether a comment starts the end sequence of the machine. -/
def endsPrint (comment : List Char) : Bool :=
  let upper := comment.map Char.toUpper
  endTexts.any fun t => Text.contains t.toList upper

/-- The marker in a comment. A layer marker whose counts do not fit is no marker. -/
def ofComment (comment : List Char) : Option Marker :=
  match firstMatch layerDigits comment with
  | some (number, total) => do some (.layer (← readCount number) (← readCount total))
  | none =>
      match firstMatch (objectLabel "start") comment with
      | some label => some (.objectStart (String.ofList label))
      | none =>
          match firstMatch (objectLabel "stop") comment with
          | some label => some (.objectStop (String.ofList label))
          | none =>
              match heightDigits comment with
              | some z => (Number.readPlain z).map zHeight
              | none => if endsPrint comment then some .endOfPrint else none

/-- The marker that a command carries. A sequence opener or closer in the code hides
the comment. -/
def ofCommand (c : Command) : Option Marker :=
  match sequenceDigits "M620 S" c.code with
  | some slot => (readCount slot).map toolChangeOpen
  | none =>
      if (sequenceDigits "M621 S" c.code).isSome then some .toolChangeClose
      else c.comment.bind fun comment => ofComment comment.toList

/-- Whether the text behind the first semicolon of some line has the form of a layer
marker. -/
def anyLayer (lines : List String) : Bool :=
  lines.any fun line =>
    match (Command.splitComment line.toList).2 with
    | some comment => (firstMatch layerDigits comment).isSome
    | none => false

/-- Whether a command carries a layer marker. -/
def isLayer (c : Command) : Bool :=
  match ofCommand c with
  | some (.layer _ _) => true
  | _ => false

theorem isLayer_iff {c : Command} :
    isLayer c = true ↔ ∃ number total, ofCommand c = some (.layer number total) := by
  unfold isLayer
  split
  · rename_i number total hmarker
    exact ⟨fun _ => ⟨number, total, hmarker⟩, fun _ => rfl⟩
  · rename_i hother
    constructor
    · exact fun h => absurd h (by simp)
    · rintro ⟨number, total, hmarker⟩
      exact absurd hmarker (hother number total)

def layerText (number total : Nat) : String :=
  "layer num/total_layer_count: " ++ toString number ++ "/" ++ toString total

def heightText (z : Float) : String :=
  "Z_HEIGHT: " ++ coordinate axisPlaces z

end Marker

end ToolBatching
