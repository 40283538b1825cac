import ToolBatching.Number.Rounding

namespace ToolBatching.Number

/-- `h ^ 2 - x ^ 2 - y ^ 2` for a hypotenuse `h` over legs `x` and `y`, of which `x` is
the longer, multiplied out so that little is lost. -/
def squareExcess (x y h : Float) : Float :=
  if h ≤ 2 * y then
    let d := h - y
    x * (2 * d - x) + (d - 2 * (x - y)) * d
  else
    let d := h - x
    2 * d * (x - 2 * y) + ((4 * d - y) * y + d * d)

/-- Length of the hypotenuse over a longer leg `x` and a shorter leg `y`, one step of
the root's iteration behind the rounded root. A leg too short to count is only added. -/
def hypotenuseOver (x y : Float) : Float :=
  if y ≤ x * powerOfTwo (-54) then x + y
  else
    let h := (x * x + y * y).sqrt
    h - squareExcess x y h / (2 * h)

/-- Length of the hypotenuse of a right triangle. -/
def hypotenuse (a b : Nat) : Float :=
  hypotenuseOver (Float.ofNat (max a b)) (Float.ofNat (min a b))

end ToolBatching.Number
