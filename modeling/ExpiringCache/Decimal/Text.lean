import ExpiringCache.Decimal.Shortest

/-!
# Written magnitudes

The shortest digits of a magnitude, in positional notation from `10 ^ (-5)` up to but not
including `10 ^ 16`, always with a point; outside that range in scientific notation, where the
exponent always has its sign and a single digit has no point (`1.5`, `2000.0`, `0.00001`,
`1.8446744073709552e+19`, `1e-7`).
-/

namespace ExpiringCache.Binary64

def zeros (n : Nat) : List Char := List.replicate n '0'

/-- Digits and the exponent of the leading one, laid out. -/
def layout (digits : List Char) (top : Int) : List Char :=
  if 0 ≤ top ∧ top < 16 then
    let whole := top.toNat + 1
    if digits.length ≤ whole then
      digits ++ zeros (whole - digits.length) ++ ['.', '0']
    else digits.take whole ++ '.' :: digits.drop whole
  else if -5 ≤ top ∧ top < 0 then
    '0' :: '.' :: zeros (-top - 1).toNat ++ digits
  else
    let exponent := (if 0 ≤ top then '+' else '-') :: Nat.toDigits 10 top.natAbs
    match digits with
    | [d] => d :: 'e' :: exponent
    | d :: rest => d :: '.' :: rest ++ 'e' :: exponent
    | [] => []

def text (x : Binary64) : String :=
  let d := Decimal.shortest x
  let digits := Nat.toDigits 10 d.digits
  String.ofList (layout digits (d.exponent + digits.length - 1))

end ExpiringCache.Binary64
