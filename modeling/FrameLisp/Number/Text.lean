import FrameLisp.Number.Literal

/-!
# The text of a number

Numbers are written with the fewest digits that read back, never with an exponent and never with a
point that nothing follows: `25`, `2.5`, `-0`. A value halfway between two shortest texts is
written as the larger one. The values no literal can write have words of their own.
-/

namespace FrameLisp

namespace Number

/-- The text of a number. -/
def text (x : Float) : String :=
  let m := Binary.magnitude x
  if Binary.infinity < m then "NaN"
  else
    let sign := if Binary.isNegative x then "-" else ""
    sign ++ if m = Binary.infinity then "inf" else String.ofList (Decimal.shortest .up m).positional

/-- The value that is not a number. -/
def nan : Float := Binary.toFloat false 0x7FF8000000000000

/-- Read a number's text back: a literal, or one of the words for a value without a literal, in
any case and with an optional sign. -/
def ofText? (s : String) : Option Float :=
  match Literal.ofChars? s.toList with
  | some l => some l.toFloat
  | none =>
    let (negative, word) := Literal.splitSign (s.toList.map Char.toLower)
    let word := String.ofList word
    if word = "inf" ∨ word = "infinity" then some (Binary.toFloat negative Binary.infinity)
    else if word = "nan" then some nan
    else none

end Number

end FrameLisp
