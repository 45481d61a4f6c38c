/-!
# Magnitudes in binary64

A finite magnitude of the 64-bit binary format is `mantissa * 2 ^ scale` units of `2 ^ (-1074)`
with a mantissa below `2 ^ 53`. Arithmetic is exact on natural numbers and rounded once at the
end: to the nearest magnitude, a half to the even mantissa. Whatever rounds to `2 ^ 1024` or more
has no finite magnitude.
-/

namespace ExpiringCache

structure Binary64 where
  mantissa : Nat
  scale : Nat
deriving DecidableEq

namespace Binary64

def zero : Binary64 := ⟨0, 0⟩

/-- The magnitude in units of `2 ^ (-1074)`. -/
def units (x : Binary64) : Nat := x.mantissa * Nat.pow 2 x.scale

/-- The nearest integer to `num / den`, a half to the even one. -/
def roundHalfEven (num den : Nat) : Nat :=
  let q := num / den
  let r := num % den
  if 2 * r < den then q else if den < 2 * r then q + 1 else q + q % 2

/-- The magnitude nearest to `num / den`, unless that is too large for the format. -/
def nearest (num den : Nat) : Option Binary64 :=
  let scaled := num * Nat.pow 2 1074
  let scale := Nat.log2 (scaled / den) - 52
  let mantissa := roundHalfEven scaled (den * Nat.pow 2 scale)
  let rounded : Binary64 := if mantissa = Nat.pow 2 53 then ⟨Nat.pow 2 52, scale + 1⟩
    else ⟨mantissa, scale⟩
  if rounded.scale ≤ 2045 then some rounded else none

def ofNat (n : Nat) : Option Binary64 := nearest n 1

def mul (x y : Binary64) : Option Binary64 := nearest (x.units * y.units) (Nat.pow 2 2148)

/-- The quotient, for a divisor that is not zero. -/
def div (x y : Binary64) : Option Binary64 := nearest x.units y.units

/-- The sixty-four bits of the format, the sign bit clear. -/
def bits (x : Binary64) : Nat := x.scale * Nat.pow 2 52 + x.mantissa

example : ofNat 1 = some ⟨Nat.pow 2 52, 1022⟩ := by decide +kernel

example : (ofNat 1).map bits = some 0x3ff0000000000000 := by decide +kernel

example : (nearest 1 10).map bits = some 0x3fb999999999999a := by decide +kernel

example : (nearest 1 (Nat.pow 2 1074)).map bits = some 1 := by decide +kernel

end Binary64

end ExpiringCache
