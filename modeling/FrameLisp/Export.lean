import FrameLisp.Value

/-!
# Plain data

Values as data that other programs understand: nothing, truth values, numbers, texts and arrays.
Symbols, primitives and functions are given by their texts, and numbers that are not finite by
nothing. Such data is written as indented JSON.

## Main definitions

* `Export` — plain data
* `Value.toExport` — a value as plain data
* `Export.pretty` — indented JSON
-/

namespace FrameLisp

/-- Plain data. -/
inductive Export where
  | null
  | bool (b : Bool)
  | number (x : Float)
  | text (s : String)
  | array (items : List Export)
deriving Inhabited

namespace Value

mutual

/-- A value as plain data. -/
def toExport : Value → Export
  | .number x => if Binary.isFinite x then .number x else .null
  | .bool b => .bool b
  | .list _ items => .array (toExports items)
  | .atom p => .text p.name
  | .symbol _ name => .text name
  | .closure _ _ params body => .text (Datum.lambda params body.toDatum).text
  | .external ref => .text (Value.external ref).text

/-- Several values as plain data. -/
def toExports : List Value → List Export
  | [] => []
  | v :: vs => toExport v :: toExports vs

end

end Value

namespace Export

/-! ### Numbers -/

/-- A number in JSON: the fewest digits that read back, with a point in every number that has no
exponent. The exponent is used where the point would be more than sixteen places after the first
digit or more than five places before it. -/
def numberText (x : Float) : String :=
  let m := Binary.magnitude x
  let d := Decimal.shortest .toEven m
  let ds := d.digits
  let point : Int := ds.length + d.exponent
  let sign := if Binary.isNegative x then "-" else ""
  let body : List Char :=
    if m = 0 then ['0', '.', '0']
    else if -5 < point ∧ point ≤ 16 then
      if 0 ≤ d.exponent then d.positional ++ ['.', '0'] else d.positional
    else
      let fraction := if ds.length = 1 then [] else '.' :: ds.tail
      let mark := if 0 < point then ['e', '+'] else ['e', '-']
      ds.take 1 ++ fraction ++ mark ++ Nat.toDigits 10 (point - 1).natAbs
  sign ++ String.ofList body

/-! ### Texts -/

/-- One character of a text in JSON. -/
def escapeChar (c : Char) : List Char :=
  if c = '"' then ['\\', '"']
  else if c = '\\' then ['\\', '\\']
  else if c = '\n' then ['\\', 'n']
  else if c = '\r' then ['\\', 'r']
  else if c = '\t' then ['\\', 't']
  else if c.toNat = 8 then ['\\', 'b']
  else if c.toNat = 12 then ['\\', 'f']
  else if c.toNat < 32 then
    ['\\', 'u', '0', '0', Nat.digitChar (c.toNat / 16), Nat.digitChar (c.toNat % 16)]
  else [c]

/-- A text in JSON. -/
def quote (s : String) : String := String.ofList ('"' :: s.toList.flatMap escapeChar ++ ['"'])

/-! ### Layout -/

/-- A new line, indented. -/
def lineBreak (indent : Nat) : String := String.ofList ('\n' :: List.replicate indent ' ')

mutual

/-- Indented JSON, inside data indented by the given number of spaces. -/
def prettyAt (indent : Nat) : Export → String
  | .null => "null"
  | .bool b => if b then "true" else "false"
  | .number x => numberText x
  | .text s => quote s
  | .array [] => "[]"
  | .array (e :: es) =>
    "[" ++ lineBreak (indent + 2) ++ prettyAt (indent + 2) e ++ prettyRest (indent + 2) es ++
      lineBreak indent ++ "]"

/-- The elements of an array after the first. -/
def prettyRest (indent : Nat) : List Export → String
  | [] => ""
  | e :: es => "," ++ lineBreak indent ++ prettyAt indent e ++ prettyRest indent es

end

/-- Indented JSON. -/
def pretty (e : Export) : String := prettyAt 0 e

end Export

end FrameLisp
