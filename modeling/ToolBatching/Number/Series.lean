import ToolBatching.Number.Rounding

namespace ToolBatching.Number

/-- `2 ^ bits * atan (1 / k)` by its power series, cut off after `terms` terms. -/
def scaledArctan (bits k terms : Nat) : Int :=
  go terms 0 (Nat.pow 2 bits / k : Nat) 0
where
  /-- Add up to `left` terms from the `i`-th on; `power` is the scaled
  `1 / k ^ (2 * i + 1)`. -/
  go (left i : Nat) (power sum : Int) : Int :=
    match left with
    | 0 => sum
    | left + 1 =>
        if power = 0 then sum
        else
          let term := power / (2 * i + 1 : Nat)
          go left (i + 1) (power / (k * k : Nat)) (if i % 2 = 0 then sum + term else sum - term)

/-- `2 ^ bits` times a quarter turn: `π / 4` is `4 atan (1/5) - atan (1/239)`. -/
def scaledQuarterTurn (bits : Nat) : Int :=
  2 * (4 * scaledArctan bits 5 bits - scaledArctan bits 239 bits)

/-- Sine and cosine of `angle / 2 ^ bits`, scaled by `2 ^ bits`, as the alternating
series whose terms grow by `angle / i`. -/
def scaledSineCosine (bits : Nat) (angle : Int) : Int × Int :=
  go bits 0 (Nat.pow 2 bits) 0 0
where
  /-- Add up to `left` terms from the `i`-th on; even terms go to the cosine and odd
  terms to the sine. -/
  go (left i : Nat) (term sine cosine : Int) : Int × Int :=
    match left with
    | 0 => (sine, cosine)
    | left + 1 =>
        if term = 0 then (sine, cosine)
        else
          let next := term * angle / Nat.pow 2 bits / (i + 1 : Nat)
          match i % 4 with
          | 0 => go left (i + 1) next sine (cosine + term)
          | 1 => go left (i + 1) next (sine + term) cosine
          | 2 => go left (i + 1) next sine (cosine - term)
          | _ => go left (i + 1) next (sine - term) cosine

end ToolBatching.Number
