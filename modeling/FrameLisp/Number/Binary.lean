/-!
# Binary floating point numbers, exactly

A nonnegative double is named by its bit pattern without the sign, a natural number here called
its *magnitude*. The pattern splits into a mantissa and a number of exponent steps, with the value
`mantissa * 2 ^ steps / 2 ^ 1074`, and `nearest` goes the other way: it gives the magnitude closest
to an arbitrary quotient, a half going to the even neighbour.

The layout makes both directions short. Counting magnitudes upwards runs through the doubles in
increasing order, so the mantissa that rounding produces is simply *added* to the number of
exponent steps: a mantissa that rounds up to `2 ^ 53` carries into the exponent by itself, and a
pattern at or past `infinity` is an overflow.

## Main definitions

* `Binary.infinity` — the magnitude of infinity; larger ones are not numbers
* `Binary.mantissa`, `Binary.exponentSteps` — the two parts of a finite magnitude
* `Binary.ratio` — the same value as a quotient of natural numbers
* `Binary.nearest` — the magnitude nearest to a quotient
-/

namespace FrameLisp

namespace Powers

/-- Where this is open, powers of natural numbers mean the same whatever else is imported. Literals
as exponents need their type for that. -/
scoped instance (priority := 2000) natPow : Pow Nat Nat := instPowNat

end Powers

namespace Binary

open scoped Powers

/-- The magnitude of infinity. Every smaller pattern is finite, every larger one is not a
number. -/
def infinity : Nat := 0x7FF0000000000000

/-- The mantissa of a finite magnitude, with the implicit leading bit of a normal number. -/
def mantissa (magnitude : Nat) : Nat :=
  if magnitude < 2 ^ (52 : Nat) then magnitude else magnitude % 2 ^ (52 : Nat) + 2 ^ (52 : Nat)

/-- How many steps a finite magnitude's exponent lies above the smallest one, `-1074`. Subnormal
numbers share the smallest exponent with the first normal ones. -/
def exponentSteps (magnitude : Nat) : Nat := magnitude / 2 ^ (52 : Nat) - 1

/-- A finite magnitude as a quotient: numerator and positive denominator. -/
def ratio (magnitude : Nat) : Nat × Nat :=
  (mantissa magnitude * 2 ^ (exponentSteps magnitude - 1074), 2 ^ (1074 - exponentSteps magnitude))

/-- The quotient `num / den` rounded to a whole number, a half going to the even neighbour. -/
def roundQuotient (num den : Nat) : Nat :=
  let q := num / den
  let r := num % den
  if den < 2 * r ∨ (2 * r = den ∧ q % 2 = 1) then q + 1 else q

/-- The exponent steps at which `num / den` has a mantissa of 53 bits, or `0` if it is so small
that it has fewer. -/
def steps (num den : Nat) : Nat :=
  let gap : Int := (num.log2 : Int) - den.log2
  let leading : Int :=
    if den * 2 ^ gap.toNat ≤ num * 2 ^ (-gap).toNat then gap else gap - 1
  (leading - 52 + 1074).toNat

/-- The magnitude nearest to `num / den`, where a half goes to the even neighbour and whatever
rounds past the largest finite number is infinite. -/
def nearest (num den : Nat) : Nat :=
  if num = 0 then 0
  else
    let s := steps num den
    let m := roundQuotient (num * 2 ^ (1074 - s)) (den * 2 ^ (s - 1074))
    min (s * 2 ^ (52 : Nat) + m) infinity

/-! ### The sign -/

/-- The number with the given sign and magnitude. -/
def toFloat (negative : Bool) (magnitude : Nat) : Float :=
  Float.ofBits (UInt64.ofNat (if negative then 2 ^ (63 : Nat) + magnitude else magnitude))

/-- The sign bit. -/
def isNegative (x : Float) : Bool := 2 ^ (63 : Nat) ≤ x.toBits.toNat

/-- The bit pattern without the sign bit. -/
def magnitude (x : Float) : Nat := x.toBits.toNat % 2 ^ (63 : Nat)

/-- Neither infinite nor undefined. -/
def isFinite (x : Float) : Bool := magnitude x < infinity

end Binary

end FrameLisp
