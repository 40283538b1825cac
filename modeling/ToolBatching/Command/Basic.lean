import ToolBatching.Command.Word
import ToolBatching.Number.Decimal
import ToolBatching.Text.Line

namespace ToolBatching

abbrev Tool := Nat

structure Command where
  /-- Index of the source line; a written command has none. -/
  line : Option Nat
  /-- The text of the line without its terminator. -/
  raw : String
  /-- The first word, such as `G1` or `M620.1`; empty for an opaque line. -/
  mnemonic : String
  x : Option Float
  y : Option Float
  z : Option Float
  e : Option Float
  f : Option Float
  /-- The tool selected by a line that is only `T` and one digit. -/
  tool : Option Tool
  /-- The text behind the first semicolon, trimmed. -/
  comment : Option String
  /-- Whether the line belongs to a tool-change sequence. -/
  inToolChange : Bool
  deriving DecidableEq

namespace Command

def splitComment (raw : List Char) : List Char × Option (List Char) :=
  match raw.span (· != ';') with
  | (code, []) => (code, none)
  | (code, _ :: comment) => (code, some comment)

/-- The trimmed text in front of the first semicolon of a line. -/
def codeOf (raw : String) : List Char :=
  Text.trim (splitComment raw.toList).1

/-- Value of the first word with the given letter whose value is a number. -/
def addressed (letter : Char) (words : List Word) : Option Float :=
  words.findSome? fun w => if w.letter = letter then Number.readPlain w.value else none

def selectedTool : List Word → Option Tool
  | [⟨'T', [digit]⟩] => if digit.isDigit then some (digit.toNat - '0'.toNat) else none
  | _ => none

/-- The command that a line's text denotes. -/
def ofText (line : Option Nat) (raw : String) : Command :=
  let comment := (splitComment raw.toList).2.map fun c => String.ofList (Text.trim c)
  let words := (Word.scan (codeOf raw)).getD []
  let arguments := words.tail
  { line, raw, comment
    mnemonic := (words.head?.map fun w => String.ofList w.text).getD ""
    x := addressed 'X' arguments
    y := addressed 'Y' arguments
    z := addressed 'Z' arguments
    e := addressed 'E' arguments
    f := addressed 'F' arguments
    tool := selectedTool words
    inToolChange := false }

/-- Read a source line; terminators at its end are dropped. -/
def parse (line : Nat) (text : String) : Command :=
  let raw := Text.dropEndWhile (fun c => c == '\r' || c == '\n') text.toList
  ofText (some line) (String.ofList raw)

def synthesized (text : String) : Command :=
  ofText none text

/-- A comment line that is not in the source. -/
def commentLine (text : String) : Command :=
  synthesized ("; " ++ text)

/-- The text in front of the first semicolon, trimmed. -/
def code (c : Command) : List Char :=
  codeOf c.raw

/-- The address words of the line; none for an opaque line. -/
def words (c : Command) : List Word :=
  (Word.scan c.code).getD []

def isCommentOrBlank (c : Command) : Bool :=
  c.code.isEmpty

/-- Whether the command is a rapid or linear move or an arc. -/
def isMotion (c : Command) : Bool :=
  c.mnemonic == "G0" || c.mnemonic == "G1" || c.mnemonic == "G2" || c.mnemonic == "G3"

/-- Whether the command is a motion that addresses an axis or the extruder. -/
def movesAxis (c : Command) : Bool :=
  c.isMotion && (c.x.isSome || c.y.isSome || c.z.isSome || c.e.isSome)

/-- Whether the command moves Z outside tool-change sequences. -/
def movesZ (c : Command) : Bool :=
  c.isMotion && c.z.isSome && !c.inToolChange

/-- The same line as a member of a tool-change sequence. -/
def toolChangeMember (c : Command) : Command :=
  { c with inToolChange := true }

/-- The text of commands: the raw text of each, all with the same terminator. -/
def unlines (ending : LineEnding) (commands : List Command) : String :=
  Text.unlines ending (commands.map raw)

end Command

end ToolBatching
