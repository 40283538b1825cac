import ToolBatching.Number.Rounding

namespace ToolBatching.Number

/-- Decimal digits of a natural, the most significant first. -/
def digits (n : Nat) : List Char :=
  Nat.toDigits 10 n

/-- Digits of a natural, filled up with zeros on the left. -/
def paddedDigits (width n : Nat) : List Char :=
  List.replicate (width - (digits n).length) '0' ++ digits n

/-- The text of `units / 10 ^ places`: a point stands in front of the last `places`
digits, and at least one digit in front of the point. -/
def placedText (places units : Nat) : List Char :=
  if places = 0 then digits units
  else
    let all := paddedDigits (places + 1) units
    all.take (all.length - places) ++ '.' :: all.drop (all.length - places)

/-- The magnitude of a finite float in units of the last place. -/
def unitsOf (places : Nat) (x : Float) : Nat :=
  roundQuotient .toEven (numerator x * Nat.pow 10 places) (denominator x)

/-- Text of a magnitude, also when it is not finite. -/
def magnitudeText (places : Nat) (x : Float) : List Char :=
  if x.isNaN then "NaN".toList
  else if x.isFinite then placedText places (unitsOf places x)
  else "inf".toList

/-- Text with a fixed number of places. A negative value that rounds to zero keeps
its sign. -/
def fixedPoint (places : Nat) (x : Float) : String :=
  let text := magnitudeText places x
  String.ofList (if isNegative x && !x.isNaN then '-' :: text else text)

end ToolBatching.Number
