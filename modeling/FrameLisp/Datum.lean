import FrameLisp.Primitive
import FrameLisp.Number.Text
import FrameLisp.Text.Blank

/-!
# Data

What the reader produces and what snapshots hold: primitives, symbols, numbers, booleans and
lists, without identities. A datum has a text, and a word of a text has a datum; the two are
inverse to each other on readable names and finite numbers.

## Main definitions

* `Datum` — the forms of the language
* `Datum.text` — how a datum is written
* `Datum.ofWord` — what a word stands for
* `isReadable` — a name that reads back as a symbol
-/

namespace FrameLisp

/-- A form as it is written. -/
inductive Datum where
  | atom (p : Primitive)
  | symbol (name : String)
  | number (x : Float)
  | bool (b : Bool)
  | list (items : List Datum)
deriving Inhabited

namespace Datum

/-- The empty list. -/
def nil : Datum := .list []

/-- The form that makes a function of the given parameters and body. -/
def lambda (params : List String) (body : Datum) : Datum :=
  .list [.atom (.form .lambda), .list (params.map .symbol), body]

/-- How truth values are written. -/
def boolText (b : Bool) : String := if b then "#t" else "#f"

mutual

/-- The text of a datum. The elements of a list are separated by single spaces. -/
def text : Datum → String
  | .atom p => p.name
  | .symbol name => name
  | .number x => Number.text x
  | .bool b => boolText b
  | .list items => "(" ++ " ".intercalate (texts items) ++ ")"

/-- The texts of several data. -/
def texts : List Datum → List String
  | [] => []
  | d :: ds => d.text :: texts ds

end

@[simp] theorem texts_eq_map (ds : List Datum) : texts ds = ds.map text := by
  induction ds with
  | nil => rfl
  | cons d ds ih => simp [texts, ih]

theorem text_list (items : List Datum) :
    (list items).text = "(" ++ " ".intercalate (items.map text) ++ ")" := by
  rw [text, texts_eq_map]

/-- What a word stands for: a truth value, a number, a primitive, and otherwise a symbol. -/
def ofWord (w : String) : Datum :=
  if w = "#t" then .bool true
  else if w = "#f" then .bool false
  else
    match Literal.ofChars? w.toList with
    | some l => .number l.toFloat
    | none =>
      match Primitive.ofName? w with
      | some p => .atom p
      | none => .symbol w

/-- Whether a datum is a symbol. -/
def isSymbol : Datum → Bool
  | .symbol _ => true
  | _ => false

end Datum

/-- A character that cannot stand in a written name: it would end the word, begin a comment or
look like a gap. -/
def isNameBreak (c : Char) : Bool :=
  Text.isBlank c || c == '(' || c == ')' || c == ';' || c.toNat == 0

/-- A name that, written as a word, reads back as the symbol of that name. -/
def isReadable (name : String) : Bool :=
  !name.isEmpty && !name.toList.any isNameBreak && (Datum.ofWord name).isSymbol

end FrameLisp
