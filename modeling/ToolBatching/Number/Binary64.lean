namespace ToolBatching.Number

/-- Whether the sign bit is set, also on a zero. -/
def isNegative (x : Float) : Bool :=
  x.toBits.toNat / 0x8000000000000000 == 1

/-- The biased exponent, in 11 bits. -/
def exponentField (x : Float) : Nat :=
  x.toBits.toNat / 0x10000000000000 % 0x800

/-- The low 52 bits. -/
def fractionField (x : Float) : Nat :=
  x.toBits.toNat % 0x10000000000000

/-- Natural mantissa of a finite float; normal floats carry the hidden bit. -/
def mantissa (x : Float) : Nat :=
  if exponentField x = 0 then fractionField x else 0x10000000000000 + fractionField x

/-- Binary exponent that goes with `mantissa`. -/
def exponent (x : Float) : Int :=
  (max (exponentField x) 1 : Nat) - 1075

/-- The magnitude of a finite float as a quotient of naturals. -/
def numerator (x : Float) : Nat :=
  mantissa x * Nat.pow 2 (exponent x).toNat

/-- A power of two; `numerator x / denominator x` is the magnitude of `x`. -/
def denominator (x : Float) : Nat :=
  Nat.pow 2 (-exponent x).toNat

def signedNumerator (x : Float) : Int :=
  if isNegative x then -(numerator x : Int) else numerator x

theorem denominator_pos (x : Float) : 0 < denominator x :=
  Nat.two_pow_pos _

/-- The larger of two floats, the second if they compare equal. A NaN yields to
the other. -/
def greater (x y : Float) : Float :=
  if y < x || y.isNaN then x else y

/-- The smaller of two floats, the second if they compare equal. A NaN yields to
the other. -/
def lesser (x y : Float) : Float :=
  if x < y || y.isNaN then x else y

/-- Ratio of a circle's circumference to its diameter, to the nearest float. -/
def pi : Float := 3.141592653589793

end ToolBatching.Number
