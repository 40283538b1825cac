import ToolBatching.Number.TangentPoint

/-!
Tangent of an angle in radians. An angle beyond an eighth of a turn is first reduced by
quarter turns, to a sum of two floats. Small angles go through a polynomial. All others
are a point of the table and a small angle `z`, for which the addition theorem gives
`tan (p + z) = t + (t + c) * tan z / (c - tan z)` with tangent `t` and cotangent `c` of
the point. The last addition leaves the result within 0.51 units in the last place.
-/

namespace ToolBatching.Number

/-- Up to this angle, the angle is its own tangent to the nearest float. -/
def linearLimit : Float := 1.2589993048095494e-8

/-- Up to this angle the polynomial is used. -/
def polynomialLimit : Float := 0.060799986124038696

/-- Up to this angle no quarter turn is taken off. -/
def reductionLimit : Float := 0.7869997024536133

/-- Coefficients of `(tan a - a) / a ^ 3` in `a ^ 2`, the highest first. -/
def tangentCoefficients : List Float :=
  [0.008896546349534924, 0.021869380598167253, 0.05396825411095433, 0.1333333333332673,
    0.3333333333333333]

/-- A polynomial by its coefficients, the highest first, with one rounding for each. -/
def polynomial (x : Float) (coefficients : List Float) : Float :=
  match coefficients with
  | [] => 0
  | highest :: others => others.foldl (fun sum c => fusedMulAdd sum x c) highest

/-- What the tangent of a small angle `a` exceeds the angle by, added to a float. -/
def addExcess (a x : Float) : Float :=
  fusedMulAdd (polynomial (a * a) tangentCoefficients) (a * (a * a)) x

/-- Coefficients of `(tan z - z) / z ^ 3` in `z ^ 2` for the small angles beside points. -/
def stepCoefficients : List Float :=
  [0.13333354920669913, 0.3333333333332254]

/-- Tangent of an angle beside a point, at most about `1 / 512`. -/
def stepTangent (z : Float) : Float :=
  fusedMulAdd (z * (z * z)) (polynomial (z * z) stepCoefficients) z

/-- What rounding loses in the sum of two floats, if the sum is `s`. -/
def sumError (x y s : Float) : Float :=
  if y.abs < x.abs then x - s + y else y - s + x

/-- An angle less some quarter turns, as a sum of two floats of which the second is at
most a rounding error of the first, and whether the number of turns is odd. -/
structure ReducedAngle where
  odd : Bool
  high : Float
  low : Float

namespace ReducedAngle

/-- The reciprocal of the sum of two floats, the second much smaller. -/
def reciprocal (x y : Float) : Float :=
  let b := x + y
  let c := 1 / b
  c + fusedMulAdd (-sumError x y b) c (fusedMulAdd (-c) b 1) / b

/-- Tangent of a positive angle by the point next to it. -/
def pointTangent (r : ReducedAngle) : Float :=
  let p := TangentPoint.ofIndex (floor (fusedMulAdd 256 r.high (-15.5))).toNat
  let step := stepTangent (r.high - p.angle + r.low)
  let scaled := (p.tangent + p.cotangent) * step
  if r.odd then -(p.cotangent - scaled / (step + p.tangent))
  else scaled / (p.cotangent - step) + p.tangent

/-- Tangent of the angle before its reduction: one quarter turn more makes it the
negative reciprocal. -/
def tangent (r : ReducedAngle) : Float :=
  if r.high.abs ≤ polynomialLimit then
    let excess := addExcess r.high r.low
    if r.odd then -reciprocal r.high excess else r.high + excess
  else if isNegative r.high then -pointTangent ⟨r.odd, -r.high, -r.low⟩
  else pointTangent r

/-- A sum of two floats whose first is the rounded sum. -/
def normalized (odd : Bool) (high low : Float) : ReducedAngle :=
  let s := high + low
  ⟨odd, s, sumError high low s⟩

/-- Parts that sum up to a quarter turn, for few turns. The first two have so few bits
that their multiples are floats. -/
def nearParts : List Float :=
  [1.5707963407039642, -1.3909067564377153e-8, -4.9789962505147994e-17]

/-- Parts that sum up to a quarter turn, for many turns. -/
def farParts : List Float :=
  [1.5707963407039642, -1.3909067564377153e-8, -4.97899623147991e-17, -1.9034889620193266e-25]

/-- Take `turns` times each part off an angle; what rounding loses is collected. -/
def takeParts (parts : List Float) (turns : Nat) (x : Float) : ReducedAngle :=
  let n := Float.ofNat turns
  let (high, low) := parts.foldl (fun (high, low) part =>
    let rest := fusedMulAdd (-n) part high
    (rest, low + fusedMulAdd (-n) part (high - rest))) (x, 0.0)
  normalized (turns % 2 == 1) high low

/-- The float nearest to `2 / π`, quarter turns per radian. -/
def turnsPerRadian : Float := 0.6366197723675814

/-- Quarter turns nearest to an angle, by its product with `turnsPerRadian`. -/
def turnsOf (x : Float) : Nat :=
  roundQuotient .toEven (numerator x * numerator turnsPerRadian)
    (denominator x * denominator turnsPerRadian)

/-- Reduce an angle of any size over integers, with 256 fraction bits and one more for
each bit that is lost in the turns. -/
def ofHuge (x : Float) : ReducedAngle :=
  let bits := 256 + (exponent x).toNat
  let unit := Nat.pow 2 bits
  let quarter := scaledQuarterTurn bits
  let angle := numerator x * unit / denominator x
  let turns := roundQuotient .toEven angle quarter.toNat
  let rest : Int := angle - turns * quarter
  let high := ofSignedQuotient rest unit
  let beside := rest * denominator high - signedNumerator high * unit
  ⟨turns % 2 == 1, high, ofSignedQuotient beside (unit * denominator high)⟩

def ofAngle (x : Float) : ReducedAngle :=
  if x ≤ reductionLimit then ⟨false, x, 0⟩
  else if x ≤ 25 then takeParts nearParts (turnsOf x) x
  else if x ≤ 100000000 then takeParts farParts (turnsOf x) x
  else ofHuge x

end ReducedAngle

def positiveTangent (x : Float) : Float :=
  if x ≤ linearLimit then x
  else if x ≤ polynomialLimit then addExcess x x
  else (ReducedAngle.ofAngle x).tangent

def tangent (x : Float) : Float :=
  if !x.isFinite then 0.0 / 0.0
  else if isNegative x then -positiveTangent (-x)
  else positiveTangent x

end ToolBatching.Number
