import ToolBatching.Command.Basic
import ToolBatching.Number.FixedPoint

namespace ToolBatching

/-- Decimal places of X, Y and Z in written commands. -/
def axisPlaces : Nat := 3

/-- Decimal places of E in written commands. -/
def extrusionPlaces : Nat := 5

/-- Drop the minus of a text whose digits are all zero. -/
def dropZeroSign : List Char → List Char
  | '-' :: rest => if rest.all fun c => c == '0' || c == '.' then rest else '-' :: rest
  | text => text

/-- A number with fixed places, a value that rounds to zero without a sign. -/
def coordinate (places : Nat) (x : Float) : String :=
  String.ofList (dropZeroSign (Number.fixedPoint places x).toList)

/-- A linear move that is not written yet. -/
structure Move where
  x : Option Float := none
  y : Option Float := none
  z : Option Float := none
  e : Option Float := none
  f : Option Float := none
  comment : Option String := none

namespace Move

/-- One word of the move, if its value is set. -/
def word (letter : String) (places : Nat) (value : Option Float) : String :=
  match value with
  | some v => " " ++ letter ++ coordinate places v
  | none => ""

def text (m : Move) : String :=
  "G1" ++ word "X" axisPlaces m.x ++ word "Y" axisPlaces m.y ++ word "Z" axisPlaces m.z
    ++ word "E" extrusionPlaces m.e ++ word "F" 0 m.f
    ++ (match m.comment with
      | some c => " ; " ++ c
      | none => "")

/-- The command that the move's text denotes. -/
def build (m : Move) : Command :=
  .synthesized m.text

end Move

end ToolBatching
