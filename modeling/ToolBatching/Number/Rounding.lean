import ToolBatching.Number.Binary64

namespace ToolBatching.Number

/-- Where a quotient half way between two naturals goes. -/
inductive Tie where
  | toEven
  | up

def roundQuotient (tie : Tie) (num den : Nat) : Nat :=
  let quotient := num / den
  let twice := 2 * (num % den)
  let above := match tie with
    | .toEven => den < twice || (twice == den && quotient % 2 == 1)
    | .up => den ≤ twice
  if above then quotient + 1 else quotient

/-- The greatest integer not above a finite float. -/
def floor (x : Float) : Int :=
  signedNumerator x / (denominator x : Int)

/-- The least integer not below a finite float. -/
def ceiling (x : Float) : Int :=
  -floor (-x)

/-- The integer nearest to a finite float, a half going away from zero. -/
def nearest (x : Float) : Int :=
  let n : Int := roundQuotient .up (numerator x) (denominator x)
  if isNegative x then -n else n

/-- Round `x` and clamp the result between two integers. An infinity goes to the
end on its side and a NaN to zero. -/
def clamped (lo hi : Int) (round : Float → Int) (x : Float) : Int :=
  if x.isNaN then 0
  else if x.isFinite then max lo (min hi (round x))
  else if isNegative x then lo else hi

def minInt64 : Int := -0x8000000000000000

def maxInt64 : Int := 0x7FFFFFFFFFFFFFFF

def maxUInt64 : Int := 0xFFFFFFFFFFFFFFFF

/-- The natural `⌊num * 2 ^ shift / den⌋`, doubled, with its last bit set when the
quotient is not whole. Rounding it to fewer bits rounds the quotient itself. -/
def stickyQuotient (num den : Nat) (shift : Int) : Nat :=
  let num := num * Nat.pow 2 shift.toNat
  let den := den * Nat.pow 2 (-shift).toNat
  2 * (num / den) + if num % den = 0 then 0 else 1

/-- `2 ^ k` for exponents that a normal float can hold. -/
def powerOfTwo (k : Int) : Float :=
  Float.ofBits (UInt64.ofNat ((k + 1023).toNat * 0x10000000000000))

/-- The float nearest to a positive quotient within the range of normal floats. -/
def ofQuotient (num den : Nat) : Float :=
  let shift : Int := 62 + (den.log2 : Int) - num.log2
  Float.ofNat (stickyQuotient num den shift) * powerOfTwo (-shift - 1)

/-- The float nearest to a quotient within the range of normal floats, of either sign;
zero stays zero. -/
def ofSignedQuotient (num : Int) (den : Nat) : Float :=
  if num = 0 then 0
  else if num < 0 then -ofQuotient num.natAbs den
  else ofQuotient num.natAbs den

/-- `x * y + z` with a single rounding, for finite floats and a sum within the range of
normal floats. -/
def fusedMulAdd (x y z : Float) : Float :=
  let den := denominator x * denominator y
  let sum := signedNumerator x * signedNumerator y * denominator z + signedNumerator z * den
  ofSignedQuotient sum (den * denominator z)

end ToolBatching.Number
