import ToolBatching.Text.Blank

namespace ToolBatching

structure Word where
  letter : Char
  value : List Char

namespace Word

/-- Characters that may follow the letter of a word. -/
def isNumberChar (c : Char) : Bool :=
  c.isDigit || c == '.' || c == '-' || c == '+'

def text (w : Word) : List Char :=
  w.letter :: w.value

/-- A word has an upper-case ASCII letter and only number characters behind it. -/
structure WellFormed (w : Word) : Prop where
  letter : w.letter.isUpper
  value : ∀ c ∈ w.value, isNumberChar c

/-- Add a character in front of a scanned text: the number characters that still
wait for their letter, and the words behind them. -/
def scanStep (c : Char) : Option (List Char × List Word) → Option (List Char × List Word)
  | none => none
  | some (waiting, words) =>
      if isNumberChar c then some (c :: waiting, words)
      else if c.isUpper then some ([], ⟨c, waiting⟩ :: words)
      else if Text.isAsciiBlank c && waiting.isEmpty then some ([], words)
      else none

/-- The words of a code text, or `none` for an opaque text. Number characters belong
to the letter in front of them. -/
def scan (code : List Char) : Option (List Word) :=
  match code.foldr scanStep (some ([], [])) with
  | some ([], words) => some words
  | _ => none

end Word

end ToolBatching
