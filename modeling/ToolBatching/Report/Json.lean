import ToolBatching.Number.Shortest

namespace ToolBatching

inductive Json where
  | null
  | count (n : Nat)
  | float (x : Float)
  | string (s : String)
  | array (items : List Json)
  | object (fields : List (String × Json))

namespace Json

def hexDigit (n : Nat) : Char :=
  if n < 10 then Char.ofNat ('0'.toNat + n) else Char.ofNat ('a'.toNat + (n - 10))

def escaped (c : Char) : List Char :=
  match c with
  | '"' => ['\\', '"']
  | '\\' => ['\\', '\\']
  | '\x08' => ['\\', 'b']
  | '\x0c' => ['\\', 'f']
  | '\n' => ['\\', 'n']
  | '\r' => ['\\', 'r']
  | '\t' => ['\\', 't']
  | c =>
      if c.toNat < 0x20 then
        ['\\', 'u', '0', '0', hexDigit (c.toNat / 16), hexDigit (c.toNat % 16)]
      else [c]

def quoted (s : String) : String :=
  String.ofList ('"' :: s.toList.flatMap escaped ++ ['"'])

def margin (width : Nat) : String :=
  String.ofList (List.replicate width ' ')

/-- Entries between brackets, each on its own line; without entries the brackets
touch. -/
def bracketed (opening closing : String) (width : Nat) (entries : List String) : String :=
  if entries.isEmpty then opening ++ closing
  else
    opening ++ "\n" ++ ",\n".intercalate (entries.map (margin (width + 2) ++ ·)) ++ "\n"
      ++ margin width ++ closing

mutual

/-- Text of a value inside lines that start with a margin. A float that is not finite
is written as the null value. -/
def textAt (width : Nat) : Json → String
  | null => "null"
  | count n => toString n
  | float x => if x.isFinite then Number.shortest x else "null"
  | string s => quoted s
  | array items => bracketed "[" "]" width (itemTexts (width + 2) items)
  | object fields => bracketed "\x7b" "\x7d" width (fieldTexts (width + 2) fields)

def itemTexts (width : Nat) : List Json → List String
  | [] => []
  | v :: rest => textAt width v :: itemTexts width rest

def fieldTexts (width : Nat) : List (String × Json) → List String
  | [] => []
  | (key, v) :: rest => (quoted key ++ ": " ++ textAt width v) :: fieldTexts width rest

end

def text (v : Json) : String :=
  v.textAt 0

end Json

end ToolBatching
