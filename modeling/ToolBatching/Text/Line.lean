namespace ToolBatching

/-- Line terminator of a text. -/
inductive LineEnding where
  | lf
  | crlf

def LineEnding.terminator : LineEnding → String
  | .lf => "\n"
  | .crlf => "\r\n"

/-- The terminator of the first line. A text without a line feed has `lf`. -/
def LineEnding.ofText (text : List Char) : LineEnding :=
  match text with
  | '\r' :: '\n' :: _ => .crlf
  | '\n' :: _ => .lf
  | _ :: rest => LineEnding.ofText rest
  | [] => .lf

namespace Text

/-- Add a character in front of lines; the flag says that the text behind it starts
with a line feed. -/
def addToLines (c : Char) : Bool × List (List Char) → Bool × List (List Char)
  | (beforeFeed, lines) =>
    if c = '\n' then (true, [] :: lines)
    else if c = '\r' && beforeFeed then (false, lines)
    else
      match lines with
      | [] => (false, [[c]])
      | line :: rest => (false, (c :: line) :: rest)

/-- Lines of a text. A line feed at the very end starts no further line. -/
def lines (text : List Char) : List (List Char) :=
  (text.foldr addToLines (false, [])).2

/-- The text made of lines that all end with the same terminator. -/
def unlines (ending : LineEnding) (lines : List String) : String :=
  lines.foldl (fun text line => text ++ line ++ ending.terminator) ""

end Text

end ToolBatching
