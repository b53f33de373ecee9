import FrameLisp.Number.Binary

/-!
# Decimals

A decimal is a coefficient and a power of ten. Reading one means rounding it to the nearest
double; writing a double means finding the decimal with the fewest digits that reads back to it.

The search is the rule itself. For one digit, then two, and so on, the two neighbours of the value
on the grid of that many digits are tried, the nearer first, and the first one that reads back
wins. Every double is itself a decimal, so the search can fall back on all its digits.

## Main definitions

* `Decimal.magnitude` — the nearest double, as a magnitude
* `Decimal.shortest` — the fewest digits that read back
* `Decimal.positional` — a decimal written out without an exponent
-/

namespace FrameLisp

/-- The number `coefficient * 10 ^ exponent`. -/
structure Decimal where
  /-- The significant digits, as a whole number. -/
  coefficient : Nat
  /-- The power of ten. -/
  exponent : Int
deriving DecidableEq, Repr, Inhabited

/-- Which neighbour a value exactly halfway between two decimals is written as. -/
inductive Tie where
  /-- The larger neighbour. -/
  | up
  /-- The neighbour whose last digit is even. -/
  | toEven
deriving DecidableEq, Repr

namespace Decimal

open scoped Powers

/-- The number of decimal digits of a positive number, and `0` for zero. -/
def digitCount (n : Nat) : Nat := if n = 0 then 0 else digitCount (n / 10) + 1
termination_by n

/-! ### Reading -/

/-- The magnitude of the double nearest to a decimal. An exponent so large or so small that the
answer is settled by it alone is not raised to a power. -/
def magnitude (d : Decimal) : Nat :=
  if d.coefficient = 0 then 0
  else if 400 < d.exponent then Binary.infinity
  else if d.exponent + digitCount d.coefficient < -400 then 0
  else Binary.nearest (d.coefficient * 10 ^ d.exponent.toNat) (10 ^ (-d.exponent).toNat)

/-! ### Writing -/

/-- Move trailing zeros of the coefficient into the exponent. -/
def strip (d : Decimal) : Decimal :=
  if d.coefficient = 0 then ⟨0, 0⟩
  else if d.coefficient % 10 = 0 then strip ⟨d.coefficient / 10, d.exponent + 1⟩
  else d
termination_by d.coefficient
decreasing_by omega

/-- The number of digits before the point of a positive quotient; for a quotient below one, minus
the number of zeros after the point. -/
def pointPosition (num den : Nat) : Int :=
  if den ≤ num then digitCount (num / den) else 1 - (digitCount ((den - 1) / num) : Int)

/-- The neighbours of a finite positive magnitude among the decimals with the given number of
digits, the nearer first. A value on the grid is its only neighbour. -/
def neighbours (tie : Tie) (magnitude digits : Nat) : List Decimal :=
  let (num, den) := Binary.ratio magnitude
  let e : Int := pointPosition num den - digits
  let n := num * 10 ^ (-e).toNat
  let d := den * 10 ^ e.toNat
  let low := n / d
  let rest := n % d
  let upFirst := d < 2 * rest || (2 * rest == d && (tie == .up || low % 2 == 1))
  if rest = 0 then [⟨low, e⟩]
  else if upFirst then [⟨low + 1, e⟩, ⟨low, e⟩]
  else [⟨low, e⟩, ⟨low + 1, e⟩]

/-- All the digits of a finite magnitude. A power of two below one is a power of five above a
power of ten. -/
def exact (magnitude : Nat) : Decimal :=
  let s := Binary.exponentSteps magnitude
  ⟨Binary.mantissa magnitude * 2 ^ (s - 1074) * 5 ^ (1074 - s), -((1074 - s : Nat) : Int)⟩

/-- The decimal with the fewest digits that reads back to a finite magnitude, and of those the
nearest. Seventeen digits always suffice. -/
def shortest (tie : Tie) (magnitude : Nat) : Decimal :=
  if magnitude = 0 then ⟨0, 0⟩
  else
    ((List.range 17).findSome? fun i =>
      ((neighbours tie magnitude (i + 1)).map strip).find? (·.magnitude == magnitude)).getD
      (exact magnitude)

/-- The digits of the coefficient. -/
def digits (d : Decimal) : List Char := Nat.toDigits 10 d.coefficient

/-- A decimal written without an exponent: zeros fill the places between the digits and the
point, and there is a point only if digits follow it. -/
def positional (d : Decimal) : List Char :=
  let ds := d.digits
  let places := (-d.exponent).toNat
  if places = 0 then ds ++ List.replicate d.exponent.toNat '0'
  else if places < ds.length then
    ds.take (ds.length - places) ++ '.' :: ds.drop (ds.length - places)
  else '0' :: '.' :: List.replicate (places - ds.length) '0' ++ ds

end Decimal

end FrameLisp
