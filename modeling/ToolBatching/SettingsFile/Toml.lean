import ToolBatching.Number.Decimal
import ToolBatching.Number.Rounding
import ToolBatching.Text.Search

/-!
Settings text in the TOML format: tables, arrays of tables, dotted keys, integers,
floats, booleans, strings, arrays and tables in braces, but no dates. A text is read as
one table or refused as a whole; no key and no table may be defined twice.
-/

namespace ToolBatching

/-- How a table came to be, which decides what may still be added to it. -/
inductive TableOrigin where
  /-- By the header of a table inside it. -/
  | implied
  /-- By a dotted key. -/
  | dotted
  /-- By its own header. -/
  | header
  /-- By braces; nothing can be added to it. -/
  | braces
  /-- By a header in two brackets, as an element of an array of tables. -/
  | element
  deriving DecidableEq

/-- A value of the format. -/
inductive Toml where
  | integer (n : Int)
  | float (x : Float)
  | boolean (b : Bool)
  | string (s : String)
  | array (items : List Toml)
  | table (origin : TableOrigin) (entries : List (String × Toml))
  /-- An array of tables, the open one at the end. -/
  | tables (elements : List (List (String × Toml)))

namespace Toml

/-- Entries of a table in the order they were written. -/
abbrev Entries := List (String × Toml)

/-- Most dotted parts of a key, and most arrays and tables in braces inside each
other. -/
def maxDepth : Nat := 79

def skipSpace (text : List Char) : List Char :=
  text.dropWhile fun c => c == ' ' || c == '\t'

/-- Whether a character may stand in a comment or string. -/
def isPlain (c : Char) : Bool :=
  c == '\t' || (0x20 ≤ c.toNat && c.toNat != 0x7F)

def skipComment (text : List Char) : List Char :=
  match text with
  | '#' :: rest => rest.dropWhile isPlain
  | text => text

/-- Take the end of a line, or see the end of the text. -/
def endOfLine (text : List Char) : Option (List Char) :=
  match skipComment (skipSpace text) with
  | [] => some []
  | '\n' :: rest => some rest
  | '\r' :: '\n' :: rest => some rest
  | _ => none

def hexDigit? (c : Char) : Option Nat :=
  if c.isDigit then some (c.toNat - '0'.toNat)
  else if 'a' ≤ c.toLower && c.toLower ≤ 'f' then some (c.toLower.toNat - 'a'.toNat + 10)
  else none

/-- The character with a code point in hexadecimal digits. -/
def codePoint (digits : List Char) : Option Char := do
  let n ← digits.foldlM (fun n c => (hexDigit? c).map fun d => 16 * n + d) 0
  if n.isValidChar then some (Char.ofNat n) else none

def readEscape : List Char → Option (Char × List Char)
  | 'b' :: rest => some ('\x08', rest)
  | 't' :: rest => some ('\t', rest)
  | 'n' :: rest => some ('\n', rest)
  | 'f' :: rest => some ('\x0c', rest)
  | 'r' :: rest => some ('\r', rest)
  | '"' :: rest => some ('"', rest)
  | '\\' :: rest => some ('\\', rest)
  | 'u' :: rest =>
      if rest.length < 4 then none else (codePoint (rest.take 4)).map fun c => (c, rest.drop 4)
  | 'U' :: rest =>
      if rest.length < 8 then none else (codePoint (rest.take 8)).map fun c => (c, rest.drop 8)
  | _ => none

/-- Read the rest of a string in double quotes; the number bounds its length. -/
def readBasic : Nat → List Char → Option (List Char × List Char)
  | 0, _ => none
  | bound + 1, text =>
      match text with
      | '"' :: rest => some ([], rest)
      | '\\' :: rest => do
          let (c, rest) ← readEscape rest
          let (s, rest) ← readBasic bound rest
          some (c :: s, rest)
      | c :: rest =>
          if isPlain c then do
            let (s, rest) ← readBasic bound rest
            some (c :: s, rest)
          else none
      | [] => none

/-- Read the rest of a string in single quotes, which has no escapes. -/
def readLiteral (text : List Char) : Option (List Char × List Char) :=
  match text.span fun c => isPlain c && c != '\'' with
  | (s, '\'' :: rest) => some (s, rest)
  | _ => none

/-- Read a string on one line in either quotes. -/
def readShort (text : List Char) : Option (String × List Char) :=
  match text with
  | '"' :: rest => (readBasic text.length rest).map fun (s, rest) => (String.ofList s, rest)
  | '\'' :: rest => (readLiteral rest).map fun (s, rest) => (String.ofList s, rest)
  | _ => none

def skipBlankText : List Char → List Char
  | ' ' :: rest => skipBlankText rest
  | '\t' :: rest => skipBlankText rest
  | '\n' :: rest => skipBlankText rest
  | '\r' :: '\n' :: rest => skipBlankText rest
  | text => text

/-- Skip the end of a line behind a backslash, with all blanks behind it. -/
def skipContinuation (text : List Char) : Option (List Char) :=
  match skipSpace text with
  | '\n' :: rest => some (skipBlankText rest)
  | '\r' :: '\n' :: rest => some (skipBlankText rest)
  | _ => none

/-- Take up to two quotes that stand behind the closing ones; they belong to the
string. -/
def takeQuotes (quote : Char) : List Char → List Char × List Char
  | c :: d :: rest =>
      if c != quote then ([], c :: d :: rest)
      else if d != quote then ([c], d :: rest)
      else ([c, d], rest)
  | [c] => if c != quote then ([], [c]) else ([c], [])
  | [] => ([], [])

/-- Whether three quotes stand at the front of a text. -/
def closesLong (quote : Char) (text : List Char) : Bool :=
  text.take 3 == [quote, quote, quote]

/-- Read the rest of a string in three quotes, which may hold ends of lines; only
between double quotes there are escapes. The number bounds its length. -/
def readLong (quote : Char) : Nat → List Char → Option (List Char × List Char)
  | 0, _ => none
  | bound + 1, text =>
      if closesLong quote text then some (takeQuotes quote (text.drop 3))
      else
        match text with
        | '\r' :: '\n' :: rest => (readLong quote bound rest).map fun (s, rest) => ('\n' :: s, rest)
        | '\n' :: rest => (readLong quote bound rest).map fun (s, rest) => ('\n' :: s, rest)
        | c :: rest =>
            if c == '\\' && quote == '"' then
              match skipContinuation rest with
              | some rest => readLong quote bound rest
              | none => do
                  let (c, rest) ← readEscape rest
                  let (s, rest) ← readLong quote bound rest
                  some (c :: s, rest)
            else if isPlain c then
              (readLong quote bound rest).map fun (s, rest) => (c :: s, rest)
            else none
        | [] => none

/-- Drop the end of a line right behind the opening quotes. -/
def dropFirstBreak : List Char → List Char
  | '\n' :: rest => rest
  | '\r' :: '\n' :: rest => rest
  | text => text

def readString (text : List Char) : Option (String × List Char) :=
  match text with
  | [] => none
  | quote :: _ =>
      if closesLong quote text then
        (readLong quote text.length (dropFirstBreak (text.drop 3))).map fun (s, rest) =>
          (String.ofList s, rest)
      else readShort text

def isKeyChar (c : Char) : Bool :=
  c.isAlphanum || c == '_' || c == '-'

def readKeyPart (text : List Char) : Option (String × List Char) :=
  match Text.takeRun isKeyChar text with
  | some (key, rest) => some (String.ofList key, rest)
  | none => readShort text

/-- Read a key of at most the given number of dotted parts. -/
def readKey : Nat → List Char → Option (List String × List Char)
  | 0, _ => none
  | bound + 1, text => do
      let (part, rest) ← readKeyPart (skipSpace text)
      match skipSpace rest with
      | '.' :: rest => do
          let (parts, rest) ← readKey bound rest
          some (part :: parts, rest)
      | rest => some ([part], rest)

/-- Digits with single underscores between them, as digits. -/
def readDigits (text : List Char) : Option (List Char) :=
  let groups := text.splitOn '_'
  if groups.all fun g => !g.isEmpty && g.all Char.isDigit then some groups.flatten else none

/-- A decimal integer without needless zeros at the front, as digits. -/
def readWhole (text : List Char) : Option (List Char) := do
  let digits ← readDigits text
  match digits with
  | '0' :: _ :: _ => none
  | digits => some digits

/-- A number behind the letter of its base; it has no sign. -/
def readBased (base : Nat) (text : List Char) : Option Int := do
  let groups := text.splitOn '_'
  if groups.any List.isEmpty then none
  else
    let n ← groups.flatten.foldlM (fun n c => do
      let d ← hexDigit? c
      if d < base then some (base * n + d) else none) 0
    some n

/-- An integer of the format, not yet checked for its range. -/
def readIntegerToken (token : List Char) : Option Int :=
  match token with
  | '0' :: 'x' :: digits => readBased 16 digits
  | '0' :: 'o' :: digits => readBased 8 digits
  | '0' :: 'b' :: digits => readBased 2 digits
  | token => do
      let (negative, rest) := Number.splitSign token
      let digits ← readWhole rest
      let n : Int := Number.ofDigits digits
      some (if negative then -n else n)

/-- Whether the part of a float behind its whole part is well formed: a fraction, an
exponent, or both. -/
def readFraction (text : List Char) : Option (List Char) :=
  match text with
  | '.' :: rest =>
      match rest.span fun c => c != 'e' && c != 'E' with
      | (digits, []) => (readDigits digits).map ('.' :: ·)
      | (digits, _ :: power) => do
          let digits ← readDigits digits
          let (negative, power) := Number.splitSign power
          let power ← readDigits power
          some ('.' :: digits ++ 'e' :: (if negative then '-' else '+') :: power)
  | e :: power =>
      if e == 'e' || e == 'E' then do
        let (negative, power) := Number.splitSign power
        let power ← readDigits power
        some ('e' :: (if negative then '-' else '+') :: power)
      else none
  | [] => none

/-- A float of the format; a number too large for a float is refused unless it is
negative. -/
def readFloatToken (token : List Char) : Option Float :=
  let (negative, rest) := Number.splitSign token
  if rest = "inf".toList || rest = "nan".toList then Number.readFloat token
  else do
    let (whole, part) := rest.span fun c => c.isDigit || c == '_'
    let whole ← readWhole whole
    let part ← readFraction part
    let x ← Number.readFloat (whole ++ part)
    if x.isFinite || negative then some (Number.withSign negative x) else none

def readToken (token : List Char) : Option Toml :=
  if token = "true".toList then some (boolean true)
  else if token = "false".toList then some (boolean false)
  else
    match readIntegerToken token with
    | some n => if Number.minInt64 ≤ n && n ≤ Number.maxInt64 then some (integer n) else none
    | none => (readFloatToken token).map float

def isTokenChar (c : Char) : Bool :=
  isKeyChar c || c == '+' || c == '.'

/-- Skip spaces, comments and ends of lines inside an array. -/
def skipLines : Nat → List Char → List Char
  | 0, text => text
  | bound + 1, text =>
      match skipComment (skipSpace text) with
      | '\n' :: rest => skipLines bound rest
      | '\r' :: '\n' :: rest => skipLines bound rest
      | rest => rest

/-- Replace the entry with a key, or add one at the end. -/
def setEntry (key : String) (v : Toml) : Entries → Entries
  | [] => [(key, v)]
  | (k, old) :: rest => if k = key then (k, v) :: rest else (k, old) :: setEntry key v rest

/-- Change the table with a key, the last one of an array of tables, if its origin
allows; make it first if there is none. -/
def updateTable (made : TableOrigin) (allows : TableOrigin → Bool)
    (change : Entries → Option Entries) (key : String) (entries : Entries) : Option Entries :=
  match entries.lookup key with
  | none => (change []).map fun inner => setEntry key (table made inner) entries
  | some (table origin inner) =>
      if allows origin then
        (change inner).map fun inner => setEntry key (table origin inner) entries
      else none
  | some (tables elements) =>
      if allows .element then
        (change (elements.getLast?.getD [])).map fun inner =>
          setEntry key (tables (elements.dropLast ++ [inner])) entries
      else none
  | some _ => none

/-- Define a table by its header; one that is only implied so far may be defined. -/
def defineTable (key : String) (entries : Entries) : Option Entries :=
  match entries.lookup key with
  | none => some (setEntry key (table .header []) entries)
  | some (table .implied inner) => some (setEntry key (table .header inner) entries)
  | some _ => none

/-- Add a table to an array of tables by its header. -/
def defineElement (key : String) (entries : Entries) : Option Entries :=
  match entries.lookup key with
  | none => some (setEntry key (tables [[]]) entries)
  | some (tables elements) => some (setEntry key (tables (elements ++ [[]])) entries)
  | some _ => none

/-- Make a definition at the end of a path; tables on the way are implied. -/
def defineAt (define : String → Entries → Option Entries) :
    List String → Entries → Option Entries
  | [], _ => none
  | [key], entries => define key entries
  | key :: path, entries =>
      updateTable .implied (fun origin => origin != .braces) (defineAt define path) key entries

/-- Whether a dotted key may lead through a table, given how many parts of the key lie
behind it. The value itself goes into a table that dotted keys made. -/
def leadsThrough (behind : Nat) : TableOrigin → Bool
  | .dotted => true
  | .implied | .element => behind != 1
  | .header | .braces => false

/-- Add a value with a dotted key to a table. -/
def addValue (v : Toml) : List String → Entries → Option Entries
  | [], _ => none
  | [key], entries =>
      match entries.lookup key with
      | none => some (setEntry key v entries)
      | some _ => none
  | key :: path, entries =>
      updateTable .dotted (leadsThrough path.length) (addValue v path) key entries

mutual

/-- Read a value; the numbers bound how many values it holds and how deep they lie. -/
def readValue : Nat → Nat → List Char → Option (Toml × List Char)
  | 0, _, _ => none
  | bound + 1, depth, text =>
      match text, depth with
      | '[' :: _, 0 => none
      | '\x7b' :: _, 0 => none
      | '[' :: rest, depth + 1 =>
          (readItems bound depth (skipLines rest.length rest)).map fun (items, rest) =>
            (array items, rest)
      | '\x7b' :: rest, depth + 1 =>
          match skipSpace rest with
          | '\x7d' :: rest => some (table .braces [], rest)
          | rest => (readFields bound depth [] rest).map fun (entries, rest) =>
              (table .braces entries, rest)
      | '"' :: _, _ => (readString text).map fun (s, rest) => (string s, rest)
      | '\'' :: _, _ => (readString text).map fun (s, rest) => (string s, rest)
      | _, _ => do
          let (token, rest) ← Text.takeRun isTokenChar text
          (readToken token).map fun v => (v, rest)

def readItems : Nat → Nat → List Char → Option (List Toml × List Char)
  | 0, _, _ => none
  | bound + 1, depth, text =>
      match text with
      | ']' :: rest => some ([], rest)
      | text => do
          let (v, rest) ← readValue bound depth text
          match skipLines rest.length rest with
          | ',' :: rest => do
              let (vs, rest) ← readItems bound depth (skipLines rest.length rest)
              some (v :: vs, rest)
          | ']' :: rest => some ([v], rest)
          | _ => none

/-- Read the rest of a table in braces that has at least one more entry. -/
def readFields : Nat → Nat → Entries → List Char → Option (Entries × List Char)
  | 0, _, _, _ => none
  | bound + 1, depth, entries, text => do
      let (key, rest) ← readKey maxDepth text
      match rest with
      | '=' :: rest => do
          let (v, rest) ← readValue bound depth (skipSpace rest)
          let entries ← addValue v key entries
          match skipSpace rest with
          | ',' :: rest => readFields bound depth entries rest
          | '\x7d' :: rest => some (entries, rest)
          | _ => none
      | _ => none

end

/-- Add a value with a dotted key to the table at a path. -/
def addValueAt (v : Toml) (key : List String) : List String → Entries → Option Entries
  | [], entries => addValue v key entries
  | part :: path, entries =>
      updateTable .implied (fun _ => true) (addValueAt v key path) part entries

/-- What has been read: the path of the open table and all entries. -/
structure Document where
  openTable : List String := []
  entries : Entries := []

/-- Read the header of a table, or in two brackets of an element of an array of tables,
behind its first bracket. -/
def Document.readHeader (d : Document) (text : List Char) : Option (Document × List Char) := do
  match text with
  | '[' :: text => do
      let (path, rest) ← readKey maxDepth text
      match rest with
      | ']' :: ']' :: rest => do
          let entries ← defineAt defineElement path d.entries
          some ({ openTable := path, entries }, rest)
      | _ => none
  | text => do
      let (path, rest) ← readKey maxDepth text
      match rest with
      | ']' :: rest => do
          let entries ← defineAt defineTable path d.entries
          some ({ openTable := path, entries }, rest)
      | _ => none

def Document.readPair (d : Document) (text : List Char) : Option (Document × List Char) := do
  let (key, rest) ← readKey maxDepth text
  match rest with
  | '=' :: rest => do
      let (v, rest) ← readValue rest.length maxDepth (skipSpace rest)
      let entries ← addValueAt v key d.openTable d.entries
      some ({ d with entries }, rest)
  | _ => none

/-- Read at most the given number of lines. -/
def Document.readLines : Nat → Document → List Char → Option Entries
  | 0, d, text => if text.isEmpty then some d.entries else none
  | bound + 1, d, text =>
      match endOfLine text with
      | some [] => some d.entries
      | some rest => readLines bound d rest
      | none => do
          let (d, rest) ← match skipSpace text with
            | '[' :: rest => d.readHeader rest
            | text => d.readPair text
          let rest ← endOfLine rest
          readLines bound d rest

/-- The entries of a settings text, or `none` for a text that is malformed. -/
def read? (text : String) : Option Entries :=
  let chars := match text.toList with
    | '\uFEFF' :: rest => rest
    | chars => chars
  Document.readLines (chars.length + 1) {} chars

end Toml

end ToolBatching
