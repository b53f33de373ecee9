/-!
# Tokens

A source text is a sequence of words and parentheses, separated by delimiters and by comments that
run from a semicolon to the end of the line. `Token.scan` finds them, each with the line and the
column at which it starts, and puts an end marker after the last one.

## Main definitions

* `Token`, `TokenKind`, `Position` — a token, what it is, where it starts
* `Token.isDelimiter`, `Token.isWordChar` — what separates words and what they consist of
* `Token.scan` — the tokens of a text
-/

namespace FrameLisp

/-- A place in a text. Lines and columns count from one, and a column is one character wide. -/
structure Position where
  line : Nat
  column : Nat
deriving DecidableEq, Repr

namespace Position

/-- The first character of a text. -/
def start : Position := ⟨1, 1⟩

/-- The place `n` characters further on the same line. -/
def right (p : Position) (n : Nat) : Position := ⟨p.line, p.column + n⟩

/-- The beginning of the next line. -/
def nextLine (p : Position) : Position := ⟨p.line + 1, 1⟩

end Position

/-- What a token is. -/
inductive TokenKind where
  | leftParen
  | rightParen
  | word (w : String)
  | eof
deriving DecidableEq, Repr

/-- How a kind of token is shown. -/
def TokenKind.text : TokenKind → String
  | .leftParen => "("
  | .rightParen => ")"
  | .word w => w
  | .eof => "<eof>"

/-- A token: what it is, the characters it was made from, and where they begin. -/
structure Token where
  kind : TokenKind
  lexeme : String
  position : Position
deriving DecidableEq, Repr

namespace Token

/-- A character that separates words within a line. -/
def isDelimiter (c : Char) : Bool :=
  c == ' ' || c == '\t' || c == '\r' || c.toNat == 0x0B || c.toNat == 0x0C || c.toNat == 0

/-- A character of a word: any that does not end the line, separate words, group them or begin a
comment. -/
def isWordChar (c : Char) : Bool :=
  !(c == '\n' || isDelimiter c || c == '(' || c == ')' || c == ';')

/-- The tokens of the characters that begin at `p`, the end marker included. -/
def scanFrom (p : Position) : List Char → List Token
  | [] => [⟨.eof, "", p⟩]
  | c :: cs =>
    if c = '\n' then scanFrom p.nextLine cs
    else if isDelimiter c then scanFrom (p.right 1) cs
    else if c = '(' then ⟨.leftParen, "(", p⟩ :: scanFrom (p.right 1) cs
    else if c = ')' then ⟨.rightParen, ")", p⟩ :: scanFrom (p.right 1) cs
    else if c = ';' then
      scanFrom (p.right ((cs.takeWhile (· ≠ '\n')).length + 1)) (cs.dropWhile (· ≠ '\n'))
    else
      let w := c :: cs.takeWhile isWordChar
      ⟨.word (String.ofList w), String.ofList w, p⟩ ::
        scanFrom (p.right w.length) (cs.dropWhile isWordChar)
termination_by cs => cs.length
decreasing_by
  all_goals first
    | exact Nat.lt_succ_self _
    | exact Nat.lt_succ_of_le (List.dropWhile_sublist _).length_le

/-- The tokens of a text, with an end marker after the last one. -/
def scan (s : String) : List Token := scanFrom .start s.toList

end Token

end FrameLisp
