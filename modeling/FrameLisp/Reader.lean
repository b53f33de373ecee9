import FrameLisp.Datum
import FrameLisp.Token

/-!
# Reading a form

The reader takes tokens to one datum. A word stands for what `Datum.ofWord` makes of it, and a pair
of parentheses for the list of the forms between them. Whatever goes wrong is reported, and a
reading always has a value: the empty list where no form could be read.

Reading keeps the lists that are still open on a stack, innermost first, each with its elements so
far in reverse. A closing parenthesis completes the innermost list and hands it to the next one
out. That makes the reader a single pass over the tokens, and what is on the stack when they run
out is exactly what the report of unmatched parentheses needs.

## Main definitions

* `ReadError` — what can be wrong, with `ReadError.message`
* `Reader.advance` — one pass over the tokens
* `Reading`, `Reader.read` — a value with its report
* `Reading.ofText` — scan and read a text
-/

namespace FrameLisp

/-- A fault found while reading. -/
inductive ReadError where
  /-- There is no form at all. -/
  | endOfInput
  /-- A closing parenthesis where a form should begin. -/
  | unexpectedClose
  /-- A parenthesis that is never closed, with the last complete form inside it. -/
  | unmatchedOpen (last : Option Datum)
  /-- There is more after the form. -/
  | trailingInput
  /-- A token after the form. -/
  | leftover (lexeme : String)
  /-- A fault that a user of the reader found. -/
  | reported (message : String)

/-- The wording of a fault. -/
def ReadError.message : ReadError → String
  | .endOfInput => "unexpected end of file"
  | .unexpectedClose => "unexpected \")\""
  | .unmatchedOpen last => "unmatched paren: " ++ (last.map Datum.text).getD ""
  | .trailingInput => "unexpected tokens found at end of program:"
  | .leftover lexeme => lexeme
  | .reported message => message

/-- What a pass over the tokens came to. -/
inductive ReadOutcome where
  /-- A complete form, and the tokens after it. -/
  | form (value : Datum) (rest : List Token)
  /-- A closing parenthesis without a form before it, and the tokens after it. -/
  | strayClose (rest : List Token)
  /-- The end of the input, with the lists still open, innermost first, each in reverse. -/
  | ended (pending : List (List Datum))

/-- A value read from tokens, with the faults found on the way. -/
structure Reading where
  value : Datum
  errors : List ReadError

namespace Reader

/-- The tokens before the first end marker. -/
def body (tokens : List Token) : List Token := tokens.takeWhile (·.kind != .eof)

/-- Read on, with the given lists open. -/
def advance (pending : List (List Datum)) : List Token → ReadOutcome
  | [] => .ended pending
  | t :: rest =>
    match t.kind, pending with
    | .eof, _ => .ended pending
    | .leftParen, _ => advance ([] :: pending) rest
    | .rightParen, [] => .strayClose rest
    | .rightParen, [items] => .form (.list items.reverse) rest
    | .rightParen, items :: outer :: more =>
      advance ((.list items.reverse :: outer) :: more) rest
    | .word w, [] => .form (.ofWord w) rest
    | .word w, items :: more => advance ((.ofWord w :: items) :: more) rest

/-- The report on tokens that follow a form. -/
def leftovers (rest : List Token) : List ReadError :=
  match body rest with
  | [] => []
  | ts => .trailingInput :: ts.map (.leftover ·.lexeme)

/-- Read one form, and report on whatever stands in its way or after it. -/
def read (tokens : List Token) : Reading :=
  match advance [] tokens with
  | .form value rest => ⟨value, leftovers rest⟩
  | .strayClose rest => ⟨.nil, .unexpectedClose :: leftovers rest⟩
  | .ended [] => ⟨.nil, [.endOfInput]⟩
  | .ended pending => ⟨.nil, pending.map fun items => .unmatchedOpen items.head?⟩

/-- What is left of the tokens after a reading: all that come after it have been reported, so only
the end marker and what lies behind it. -/
def remaining (tokens : List Token) : List Token := tokens.dropWhile (·.kind != .eof)

/-- The readings of a number of attempts on the same tokens, each going on where the one before
stopped. -/
def readings (tokens : List Token) : Nat → List Reading
  | 0 => []
  | n + 1 => read tokens :: readings (remaining tokens) n

end Reader

namespace Reading

/-- The reading of a text. -/
def ofText (s : String) : Reading := Reader.read (Token.scan s)

/-- Whether nothing was wrong. -/
def isOk (r : Reading) : Bool := r.errors.isEmpty

/-- The same reading with one more fault. -/
def report (r : Reading) (message : String) : Reading :=
  { r with errors := r.errors ++ [.reported message] }

/-- The value, or the faults if there are any. -/
def toExcept (r : Reading) : Except (List ReadError) Datum :=
  if r.isOk then .ok r.value else .error r.errors

end Reading

end FrameLisp
