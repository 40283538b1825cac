import ToolBatching.Number.FixedPoint

/-!
The shortest decimal text that reads back to the same float. Candidates with one
digit, two digits and so on are tried against the interval of reals that round to
the float; the first count of digits with a hit wins, and of two hits the nearer.
-/

namespace ToolBatching.Number

/-- A decimal `digits * 10 ^ exponent`. -/
structure Scientific where
  digits : Nat
  exponent : Int

/-- Order of `a * 10 ^ i` and `b * 2 ^ j`. -/
def compareScaled (a : Nat) (i : Int) (b : Nat) (j : Int) : Ordering :=
  compare (a * Nat.pow 10 i.toNat * Nat.pow 2 (-j).toNat)
    (b * Nat.pow 2 j.toNat * Nat.pow 10 (-i).toNat)

/-- Whether the gap below the float is half the gap above it. -/
def narrowBelow (x : Float) : Bool :=
  fractionField x == 0 && 1 < exponentField x

/-- Whether a decimal lies among the reals that round to the magnitude of `x`. The
ends of the interval belong to it when the mantissa is even. -/
def roundsTo (d : Scientific) (x : Float) : Bool :=
  let m := mantissa x
  let low := if narrowBelow x then 4 * m - 1 else 4 * m - 2
  let below := compareScaled d.digits d.exponent low (exponent x - 2)
  let above := compareScaled d.digits d.exponent (4 * m + 2) (exponent x - 2)
  let even := m % 2 == 0
  (below == .gt || (even && below == .eq)) && (above == .lt || (even && above == .eq))

/-- The least power of ten above the magnitude of a finite nonzero float, found by
stepping up from a lower bound. -/
def decimalScale (x : Float) : Int :=
  let start := ((mantissa x).log2 + exponent x) * 3 / 10 - 2
  go 100 start
where
  /-- Step up at most `left` times. -/
  go : Nat → Int → Int
    | 0, k => k
    | left + 1, k =>
        if compareScaled 1 k (mantissa x) (exponent x) == .gt then k else go left (k + 1)

/-- The nearest decimal with `count` digits that reads back to `x`, if there is one. -/
def candidate (x : Float) (scale : Int) (count : Nat) : Option Scientific :=
  let power := scale - count
  let num := numerator x * Nat.pow 10 (-power).toNat
  let den := denominator x * Nat.pow 10 power.toNat
  let best := roundQuotient .toEven num den
  let down := num / den
  let other := if best = down then down + 1 else down
  [best, other].findSome? fun n =>
    let d : Scientific := ⟨n, power⟩
    if roundsTo d x then some d else none

def Scientific.trimmed (d : Scientific) : Scientific :=
  go d.digits d.digits d.exponent
where
  /-- Divide by ten at most as often as the first argument says. -/
  go : Nat → Nat → Int → Scientific
    | 0, n, e => ⟨n, e⟩
    | left + 1, n, e => if n % 10 = 0 && n != 0 then go left (n / 10) (e + 1) else ⟨n, e⟩

/-- The shortest decimal that reads back to a finite nonzero magnitude. Seventeen
digits always do. -/
def shortestDecimal (x : Float) : Scientific :=
  let scale := decimalScale x
  match (List.range' 1 17).findSome? (candidate x scale) with
  | some d => d.trimmed
  | none => ⟨mantissa x, exponent x⟩

/-- Text of a decimal: positional from `1e-5` up to `1e16` with a digit behind the
point, otherwise one digit in front of the point and a signed exponent. -/
def Scientific.text (d : Scientific) : List Char :=
  let ds := Number.digits d.digits
  let lead : Int := ds.length + d.exponent
  if -5 < lead && lead ≤ 16 then
    if 0 ≤ d.exponent then ds ++ List.replicate d.exponent.toNat '0' ++ ".0".toList
    else if 0 < lead then ds.take lead.toNat ++ '.' :: ds.drop lead.toNat
    else "0.".toList ++ List.replicate (-lead).toNat '0' ++ ds
  else
    let tail := ds.drop 1
    let point := if tail.isEmpty then [] else '.' :: tail
    let power := lead - 1
    ds.take 1 ++ point ++ ['e', if power < 0 then '-' else '+'] ++ Number.digits power.natAbs

/-- Shortest text of a finite float, zeros as `0.0` and `-0.0`. -/
def shortest (x : Float) : String :=
  let text := if mantissa x = 0 then "0.0".toList else (shortestDecimal x).text
  String.ofList (if isNegative x then '-' :: text else text)

end ToolBatching.Number
