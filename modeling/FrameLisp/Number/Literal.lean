import FrameLisp.Number.Decimal

/-!
# Number words

A word is a number when it is an optional sign, then digits with an optional point among or around
them, then an optional exponent. Only the ten ASCII digits count, and at least one digit stands
next to the point. The value is the double nearest to the decimal that is written.

## Main definitions

* `Literal.ofChars?` — split a word into sign, coefficient and exponent
* `Literal.toFloat` — the nearest double
-/

namespace FrameLisp

/-- A number as it is written in a word. -/
structure Literal where
  /-- Whether a minus sign stands in front. -/
  negative : Bool
  /-- The unsigned decimal. -/
  decimal : Decimal
deriving DecidableEq, Repr

namespace Literal

/-- One of the ten ASCII digits. -/
def isDigit (c : Char) : Bool := '0' ≤ c && c ≤ '9'

/-- Split off a sign: whether it is a minus, and the rest. -/
def splitSign : List Char → Bool × List Char
  | '+' :: cs => (false, cs)
  | '-' :: cs => (true, cs)
  | cs => (false, cs)

/-- Split off the digits after a point, if a point comes next. -/
def splitFraction : List Char → List Char × List Char
  | '.' :: cs => (cs.takeWhile isDigit, cs.dropWhile isDigit)
  | cs => ([], cs)

/-- The whole number that a run of digits writes. -/
def value (digits : List Char) : Nat := Nat.ofDigitChars 10 digits 0

/-- The exponent part: nothing, or a letter, an optional sign and one or more digits. -/
def exponent? : List Char → Option Int
  | [] => some 0
  | c :: cs =>
    if c = 'e' ∨ c = 'E' then
      let (negative, digits) := splitSign cs
      if digits.isEmpty ∨ digits.any (!isDigit ·) then none
      else some (if negative then -(value digits : Int) else value digits)
    else none

/-- Read a whole word as a number. -/
def ofChars? (cs : List Char) : Option Literal :=
  let (negative, cs) := splitSign cs
  let whole := cs.takeWhile isDigit
  let (fraction, rest) := splitFraction (cs.dropWhile isDigit)
  if whole.isEmpty ∧ fraction.isEmpty then none
  else
    (exponent? rest).map fun e =>
      ⟨negative, ⟨value (whole ++ fraction), e - (fraction.length : Int)⟩⟩

/-- The double nearest to the number that is written, with the sign kept on a zero. -/
def toFloat (l : Literal) : Float := Binary.toFloat l.negative l.decimal.magnitude

end Literal

end FrameLisp
