import FrameLisp.Number.Text

/-!
# Arithmetic

The operations on numbers that the language defines for itself, beyond what the processor has: the
remainder, sums and quotients of several numbers, the least and the greatest of several numbers,
and which numbers are whole.

## Main definitions

* `Number.remainder` — the exact remainder, with the sign of the dividend
* `Number.sum`, `Number.quotient`, `Number.least`, `Number.greatest` — folds over several numbers
* `Number.toInt?` — a number as an integer, if it is one of moderate size
-/

namespace FrameLisp

namespace Number

open scoped Powers

/-- The sum of several numbers, from left to right. It starts from minus zero, which is neutral
for every number: zeros keep their sign. -/
def sum (xs : List Float) : Float := xs.foldl (· + ·) (-0.0)

/-- The first number divided by the others in turn. It is zero as soon as a divisor is. -/
def quotient (x : Float) : List Float → Float
  | [] => x
  | y :: ys => if y == 0.0 then 0.0 else quotient (x / y) ys

/-- The smaller of two numbers, undefined if either of them is. -/
def lesser (x y : Float) : Float := if x.isNaN || y.isNaN then nan else if y < x then y else x

/-- The larger of two numbers, undefined if either of them is. -/
def greater (x y : Float) : Float := if x.isNaN || y.isNaN then nan else if x < y then y else x

/-- What is left of `x` after taking away `y` a whole number of times, rounding the quotient toward
zero. The result is exact and has the sign of `x`. -/
def remainder (x y : Float) : Float :=
  if !Binary.isFinite x || y.isNaN || y == 0.0 then nan
  else if !Binary.isFinite y then x
  else
    let (a, b) := Binary.ratio (Binary.magnitude x)
    let (c, d) := Binary.ratio (Binary.magnitude y)
    Binary.toFloat (Binary.isNegative x) (Binary.nearest (a * d % (c * b)) (b * d))

/-- A whole number of absolute value below `2 ^ 63`, as an integer. -/
def toInt? (x : Float) : Option Int :=
  if Binary.isFinite x then
    let (n, d) := Binary.ratio (Binary.magnitude x)
    if n % d = 0 ∧ n / d < 2 ^ (63 : Nat) then
      some (if Binary.isNegative x then -((n / d : Nat) : Int) else ((n / d : Nat) : Int))
    else none
  else none

end Number

end FrameLisp
