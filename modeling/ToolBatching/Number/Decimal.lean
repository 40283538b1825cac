import ToolBatching.Number.Binary64

namespace ToolBatching.Number

/-- The natural that a list of decimal digits denotes. -/
def ofDigits (ds : List Char) : Nat :=
  ds.foldl (fun n d => 10 * n + (d.toNat - '0'.toNat)) 0

/-- An unsigned decimal `digits * 10 ^ -places`. -/
structure Decimal where
  digits : Nat
  places : Nat

/-- Digits with at most one point among or around them and at least one digit. -/
def Decimal.read? (text : List Char) : Option Decimal :=
  let whole := text.takeWhile Char.isDigit
  match text.dropWhile Char.isDigit with
  | [] => if whole.isEmpty then none else some ⟨ofDigits whole, 0⟩
  | '.' :: part =>
      if part.all Char.isDigit && !(whole.isEmpty && part.isEmpty) then
        some ⟨ofDigits (whole ++ part), part.length⟩
      else none
  | _ => none

/-- The float nearest to a decimal times a power of ten. -/
def Decimal.scaled (d : Decimal) (power : Int) : Float :=
  let exponent := power - d.places
  Float.ofScientific d.digits (exponent < 0) exponent.natAbs

def Decimal.toFloat (d : Decimal) : Float :=
  d.scaled 0

/-- Split an optional sign off; the flag says whether it is a minus. -/
def splitSign : List Char → Bool × List Char
  | '-' :: rest => (true, rest)
  | '+' :: rest => (false, rest)
  | text => (false, text)

def withSign (negative : Bool) (x : Float) : Float :=
  if negative then -x else x

def readPlain (text : List Char) : Option Float :=
  let (negative, rest) := splitSign text
  (Decimal.read? rest).map fun d => withSign negative d.toFloat

/-- Read an integer with an optional sign. -/
def readInteger (text : List Char) : Option Int :=
  let (negative, rest) := splitSign text
  if rest.isEmpty || !rest.all Char.isDigit then none
  else some (if negative then -(ofDigits rest : Int) else ofDigits rest)

/-- A power of ten brought between `-most` and `most`. A decimal of `n` digits is zero or
infinite as a float well before its power reaches `n + 400`. -/
def clampPower (most : Nat) (power : Int) : Int :=
  max (-most) (min most power)

/-- Read the magnitude of a float: a name in any case, or a decimal with an optional
exponent behind an `e` in any case. -/
def readMagnitude (text : List Char) : Option Float :=
  let lower := text.map Char.toLower
  if lower = "nan".toList then some (0.0 / 0.0)
  else if lower = "inf".toList || lower = "infinity".toList then some (1.0 / 0.0)
  else
    match lower.span (· != 'e') with
    | (decimal, []) => (Decimal.read? decimal).map Decimal.toFloat
    | (decimal, _ :: power) => do
        let d ← Decimal.read? decimal
        let k ← readInteger power
        pure (d.scaled (clampPower (text.length + 400) k))

def readFloat (text : List Char) : Option Float :=
  let (negative, rest) := splitSign text
  (readMagnitude rest).map (withSign negative)

end ToolBatching.Number
