import ToolBatching.Text.Blank
import ToolBatching.Text.DecimalDigit

namespace ToolBatching.Text

/-- Whether a character folds to a lower-case ASCII letter or equals the pattern's
character. The long s folds to `s` and the Kelvin sign to `k`. -/
def foldsTo (pattern c : Char) : Bool :=
  c.toLower == pattern || (pattern == 's' && c == '\u017F') || (pattern == 'k' && c == '\u212A')

/-- Take a literal, given in lower case, off the front of a text. -/
def dropFolded : List Char → List Char → Option (List Char)
  | [], text => some text
  | _ :: _, [] => none
  | p :: pattern, c :: text => if foldsTo p c then dropFolded pattern text else none

/-- Take a literal off the front of a text. -/
def dropLiteral : List Char → List Char → Option (List Char)
  | [], text => some text
  | _ :: _, [] => none
  | p :: pattern, c :: text => if p = c then dropLiteral pattern text else none

def skipBlanks (text : List Char) : List Char :=
  text.dropWhile isBlank

/-- Take a run of characters that satisfy `p` off the front of a text; it must not
be empty. -/
def takeRun (p : Char → Bool) (text : List Char) : Option (List Char × List Char) :=
  match text.takeWhile p with
  | [] => none
  | run => some (run, text.dropWhile p)

/-- What a reader gives at the first place of a text where it succeeds, the end
included. -/
def firstMatch {α : Type} (read : List Char → Option α) : List Char → Option α
  | [] => read []
  | c :: rest =>
      match read (c :: rest) with
      | some found => some found
      | none => firstMatch read rest

def contains (part text : List Char) : Bool :=
  (firstMatch (dropLiteral part) text).isSome

end ToolBatching.Text
