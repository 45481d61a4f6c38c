import ExpiringCache.Decimal.Binary64

/-!
# Shortest decimals

The decimal with the fewest digits that reads back as a given magnitude, and of several the one
nearest to it. The reals that round to a magnitude form an interval, closed exactly when the
mantissa is even. For one digit, two, and so on up to seventeen, the two neighbours of the
magnitude on that decimal grid are tried, in exact arithmetic; the first grid with a hit wins.
-/

namespace ExpiringCache

/-- The number `digits * 10 ^ exponent`. -/
structure Decimal where
  digits : Nat
  exponent : Int
deriving DecidableEq

namespace Decimal

/-- The reals that round to one magnitude. Its bounds, as every magnitude, are whole numbers of the units of
which `10 ^ 400 * 2 ^ 1076` make one. -/
structure Interval where
  low : Nat
  high : Nat
  closed : Bool

namespace Interval

/-- The gap below a power of two is half the gap above it. -/
def around (x : Binary64) : Interval where
  low := (4 * x.units - (if x.mantissa = Nat.pow 2 52 ∧ 0 < x.scale then 1 else 2) *
    Nat.pow 2 x.scale) * Nat.pow 10 400
  high := (4 * x.units + 2 * Nat.pow 2 x.scale) * Nat.pow 10 400
  closed := x.mantissa % 2 = 0

def contains (i : Interval) (n : Nat) : Bool :=
  (i.low < n && n < i.high) || (i.closed && (n = i.low || n = i.high))

end Interval

/-- Of the two neighbours of `value` on the grid of width `step`, the nearer one in the interval;
of two equally near the even one. -/
def hit? (i : Interval) (value step : Nat) : Option Nat :=
  let below := value / step
  let above := below + 1
  match i.contains (below * step), i.contains (above * step) with
  | true, true =>
    let down := value - below * step
    let up := above * step - value
    some (if down < up then below else if up < down then above else below + below % 2)
  | true, false => some below
  | false, true => some above
  | false, false => none

/-- Tries `count` digits and then more, `left` grids in all; `top` is the exponent of the leading
digit. -/
def search (i : Interval) (value : Nat) (top : Int) : Nat → Nat → Decimal
  | _, 0 => ⟨0, 0⟩
  | count, left + 1 =>
    let exponent := top + 1 - count
    let step := Nat.pow 10 (400 + exponent).toNat * Nat.pow 2 1076
    match hit? i value step with
    | some n => ⟨n, exponent⟩
    | none => search i value top (count + 1) left

/-- Moves zeros at the end of the digits into the exponent. -/
def trimmed (d : Decimal) : Nat → Decimal
  | 0 => d
  | fuel + 1 =>
    if d.digits ≠ 0 ∧ d.digits % 10 = 0 then trimmed ⟨d.digits / 10, d.exponent + 1⟩ fuel else d

/-- The shortest decimal that reads back as `x`. -/
def shortest (x : Binary64) : Decimal :=
  if x.mantissa = 0 then ⟨0, 0⟩
  else
    let value := 4 * x.units * Nat.pow 10 400
    let top := ((Nat.toDigits 10 (value / Nat.pow 2 1076)).length : Int) - 401
    trimmed (search (.around x) value top 1 17) 17

end Decimal

end ExpiringCache
